import PCoin.Qr.Codewords

/-! The matrix of `qr.mjs`: function patterns, data, mask, format, and the reading of a symbol. -/

namespace pcoin.qr

section Model

/-- The cells by row and column, `null` where nothing is placed. -/
abbrev Matrix := Nat × Nat → Option Bool

def blankMatrix : Matrix := fun _ => none

/-- `m[r][c] = v`. -/
def Matrix.set (m : Matrix) (cell : Nat × Nat) (v : Bool) : Matrix :=
  fun p => if p = cell then some v else m p

/-- A loop whose round `i` writes one cell. -/
def Matrix.loop (m : Matrix) (rounds : List Nat) (cell : Nat → Nat × Nat) (v : Nat → Bool) : Matrix :=
  rounds.foldl (fun m i => m.set (cell i) (v i)) m

/-- Two nested loops that write every cell of a region once. -/
def Matrix.paint (m : Matrix) (region on : Nat × Nat → Bool) : Matrix :=
  fun p => if region p then some (on p) else m p

/-- The cells of rows `r0 ..< r1` and columns `c0 ..< c1`. -/
def box (r0 r1 c0 c1 : Nat) (p : Nat × Nat) : Bool :=
  r0.ble p.1 && p.1.blt r1 && c0.ble p.2 && p.2.blt c1

/-- `finder(r0, c0)`: the rows and columns from -1 to 7, as far as the matrix goes. -/
def Matrix.finder (m : Matrix) (size r0 c0 : Nat) : Matrix :=
  m.paint (box (r0 - 1) (min size (r0 + 8)) (c0 - 1) (min size (c0 + 8))) fun p =>
    let r : Int := p.1 - r0
    let c : Int := p.2 - c0
    (0 ≤ r ∧ r ≤ 6 ∧ (c = 0 ∨ c = 6)) ∨ (0 ≤ c ∧ c ≤ 6 ∧ (r = 0 ∨ r = 6)) ∨
      (2 ≤ r ∧ r ≤ 4 ∧ 2 ≤ c ∧ c ≤ 4)

def ALIGN (version : Nat) : List Nat :=
  [[], [6, 18], [6, 22], [6, 26], [6, 30], [6, 34], [6, 22, 38], [6, 24, 42], [6, 26, 46],
    [6, 28, 50]].getD (version - 1) []

/-- The centres of the alignment patterns, without the three that would sit on a finder. -/
def centers (version size : Nat) : List (Nat × Nat) :=
  ((ALIGN version).flatMap fun r => (ALIGN version).map fun c => (r, c)).filter fun p =>
    ¬((p.1 ≤ 8 ∧ p.2 ≤ 8) ∨ (p.1 ≤ 8 ∧ size - 9 ≤ p.2) ∨ (size - 9 ≤ p.1 ∧ p.2 ≤ 8))

def Matrix.alignment (m : Matrix) (center : Nat × Nat) : Matrix :=
  m.paint (box (center.1 - 2) (center.1 + 3) (center.2 - 2) (center.2 + 3)) fun p =>
    let dr : Int := p.1 - center.1
    let dc : Int := p.2 - center.2
    dr.natAbs = 2 ∨ dc.natAbs = 2 ∨ (dr = 0 ∧ dc = 0)

/-- The cells reserved for the format. -/
def formatArea (size : Nat) (p : Nat × Nat) : Bool :=
  box 8 9 0 9 p || box 0 9 8 9 p || box 8 9 (size - 8) size p || box (size - 8) size 8 9 p

/-- The cells of the version information. -/
def versionArea (size : Nat) (p : Nat × Nat) : Bool :=
  box (size - 11) (size - 8) 0 6 p || box 0 6 (size - 11) (size - 8) p

def placeFunction (m : Matrix) (version size : Nat) : Matrix :=
  let m := ((m.finder size 0 0).finder size 0 (size - 7)).finder size (size - 7) 0
  let m := m.paint (box 6 7 8 (size - 8)) fun p => p.2 % 2 = 0
  let m := m.paint (box 8 (size - 8) 6 7) fun p => p.1 % 2 = 0
  let m := (centers version size).foldl Matrix.alignment m
  let m := m.set (size - 8, 8) true
  -- what stands in the format area stays
  let m := m.paint (formatArea size) fun p => (m p).getD false
  if 7 ≤ version then m.paint (versionArea size) fun _ => false else m

/-- The columns that the data starts its strips from, the timing column skipped. -/
def rights : Nat → Nat → List Nat
  | 0, _ => []
  | fuel + 1, right =>
    if right = 0 then []
    else
      let right := if right = 6 then 5 else right
      right :: rights fuel (right - 2)

def strip (size : Nat) (upward : Bool) (right : Nat) : List (Nat × Nat) :=
  (List.range size).flatMap fun v =>
    let row := if upward then size - 1 - v else v
    [(row, right), (row, right - 1)]

/-- The cells in the order in which `placeData` visits them. -/
def zigzag (size : Nat) : Bool → List Nat → List (Nat × Nat)
  | _, [] => []
  | upward, right :: rest => strip size upward right ++ zigzag size (!upward) rest

def cells (size : Nat) : List (Nat × Nat) := zigzag size true (rights size (size - 1))

/-- Fills the cells that are still `null`. -/
def fill : Matrix → List (Nat × Nat) → List Bool → Matrix
  | m, [], _ => m
  | m, p :: rest, bits =>
    if (m p).isSome then fill m rest bits else fill (m.set p (bits.headD false)) rest bits.tail

def placeData (m : Matrix) (size : Nat) (codewords : List UInt8) : Matrix :=
  fill m (cells size) (bitsOf codewords)

def MASKS : List (Nat → Nat → Bool) :=
  [fun r c => (r + c) % 2 = 0,
    fun r _ => r % 2 = 0,
    fun _ c => c % 3 = 0,
    fun r c => (r + c) % 3 = 0,
    fun r c => (r / 2 + c / 3) % 2 = 0,
    fun r c => r * c % 2 + r * c % 3 = 0,
    fun r c => (r * c % 2 + r * c % 3) % 2 = 0,
    fun r c => ((r + c) % 2 + r * c % 3) % 2 = 0]

/-- Rule 1 for a line. -/
def runScore (line : Nat → Option Bool) (size : Nat) : Nat :=
  ((List.range' 1 (size - 1)).foldl (fun s j =>
    if line j = line (j - 1) then
      (s.1 + 1, s.2 + if s.1 + 1 = 5 then 3 else if 5 < s.1 + 1 then 1 else 0)
    else (1, s.2)) (1, 0)).2

/-- `match(line.slice(j, j + 11), pat)`. -/
def matchesAt (line : Nat → Option Bool) (j : Nat) (pat : List Bool) : Bool :=
  pat.zipIdx.all fun v => line (j + v.2) = some v.1

def p1 : List Bool := [true, false, true, true, true, false, true, false, false, false, false]

def p2 : List Bool := [false, false, false, false, true, false, true, true, true, false, true]

/-- Rule 3 for a line at a place. -/
def finderLike (line : Nat → Option Bool) (j : Nat) : Nat :=
  if matchesAt line j p1 || matchesAt line j p2 then 40 else 0

def penalty (m : Matrix) (size : Nat) : Nat :=
  let lines := List.range size
  let rule1 := (lines.map fun i => runScore (fun j => m (i, j)) size + runScore (fun j => m (j, i)) size).sum
  let rule2 := ((List.range (size - 1)).map fun r => ((List.range (size - 1)).map fun c =>
    if m (r, c) = m (r, c + 1) ∧ m (r, c) = m (r + 1, c) ∧ m (r, c) = m (r + 1, c + 1) then 3 else 0).sum).sum
  let rule3 := (lines.map fun i => ((List.range (size - 10)).map fun j =>
    finderLike (fun k => m (i, k)) j + finderLike (fun k => m (k, i)) j).sum).sum
  let dark := (lines.map fun r => lines.countP fun c => m (r, c) = some true).sum
  -- the floor of a fifth of the distance in percent
  rule1 + rule2 + rule3 +
    ((dark * 100 : Int) - 50 * (size * size)).natAbs / (5 * (size * size)) * 10

/-- `32 - Math.clz32(v)`. -/
def bitLength (v : Nat) : Nat := if v = 0 then 0 else v.log2 + 1

/-- The loop of `bch`, which shortens `v` every time. -/
def divide (generator : Nat) : Nat → Nat → Nat
  | 0, v => v
  | fuel + 1, v =>
    if bitLength generator ≤ bitLength v then
      divide generator fuel (v ^^^ (generator <<< (bitLength v - bitLength generator)))
    else v

def bch (value generator bitLen : Nat) : Nat :=
  let v := value <<< (bitLen - 1)
  divide generator (bitLength v) v

def formatBits (mask : Nat) : Nat :=
  let data := (0b00 <<< 3) ||| mask
  ((data <<< 10) ||| bch data 0x537 11) ^^^ 0x5412

def applyFormat (m : Matrix) (size mask : Nat) : Matrix :=
  let get := (formatBits mask).testBit
  let m := m.loop (List.range' 0 6) (fun i => (i, 8)) get
  let m := ((m.set (7, 8) (get 6)).set (8, 8) (get 7)).set (8, 7) (get 8)
  let m := m.loop (List.range' 9 6) (fun i => (8, 14 - i)) get
  let m := m.loop (List.range' 0 8) (fun i => (8, size - 1 - i)) get
  let m := m.loop (List.range' 8 7) (fun i => (size - 15 + i, 8)) get
  m.set (size - 8, 8) true

def applyVersionInfo (m : Matrix) (size version : Nat) : Matrix :=
  if version < 7 then m
  else
    let bits := (version <<< 12) ||| bch version 0x1f25 13
    (List.range 18).foldl (fun m i =>
      (m.set (i / 3, size - 11 + i % 3) (bits.testBit i)).set (size - 11 + i % 3, i / 3) (bits.testBit i)) m

/-- The mask of the data cells: `mx.m[r][c] ^= 1`. -/
def applyMask (m : Matrix) (size : Nat) (isFunction : Nat × Nat → Bool) (mask : Nat → Nat → Bool) : Matrix :=
  m.paint (fun p => box 0 size 0 size p && !isFunction p && mask p.1 p.2) fun p => !(m p).getD false

structure Symbol where
  size : Nat
  m : Matrix

def isFunction (version : Nat) (p : Nat × Nat) : Bool :=
  (placeFunction blankMatrix version (17 + 4 * version) p).isSome

/-- The symbol of a mask. -/
def masked (version : Nat) (codewords : List UInt8) (mask : Nat) (f : Nat → Nat → Bool) : Matrix :=
  let size := 17 + 4 * version
  let m := placeData (placeFunction blankMatrix version size) size codewords
  let m := applyMask m size (isFunction version) f
  applyVersionInfo (applyFormat m size mask) size version

/-- What the loop over the masks keeps: the least score so far, and its matrix. -/
def tryMask (version : Nat) (codewords : List UInt8) (best : Option (Nat × Matrix)) (mask : Nat) :
    Except String (Option (Nat × Matrix)) := do
  match MASKS[mask]? with
  | none => throw "MASKS[mask] is not a function"
  | some f =>
    let m := masked version codewords mask f
    let s := penalty m (17 + 4 * version)
    return if best.all (s < ·.1) then some (s, m) else best

def encode (bytes : List UInt8) (forceMask : Option Nat) : Except String (Option Symbol) := do
  let version ← pickVersion bytes.length
  let codewords := interleave (buildCodewords bytes version) version
  let masks := forceMask.elim [0, 1, 2, 3, 4, 5, 6, 7] fun mask => [mask]
  let best ← masks.foldlM (tryMask version codewords) none
  return best.map fun b => ⟨17 + 4 * version, b.2⟩

end Model

section Cells

theorem box_iff {r0 r1 c0 c1 : Nat} {p : Nat × Nat} :
    box r0 r1 c0 c1 p = true ↔ (r0 ≤ p.1 ∧ p.1 < r1) ∧ c0 ≤ p.2 ∧ p.2 < c1 := by
  simp [box, Nat.blt]
  omega

/-! ### The order of the data -/

theorem rights_spec {fuel right : Nat} (h : right % 2 = 0 ∨ right ≤ 5) :
    ∀ x ∈ rights fuel right, 1 ≤ x ∧ x ≤ right ∧ x ≠ 6 ∧ x ≠ 7 := by
  induction fuel generalizing right with
  | zero => simp [rights]
  | succ fuel ih =>
    intro x hx
    rw [rights] at hx
    split at hx
    · cases hx
    · obtain rfl | hx := List.mem_cons.mp hx
      · split <;> omega
      · have hrest := ih (by split <;> omega) x hx
        split at hrest <;> omega

theorem rights_pairwise {fuel right : Nat} (h : right % 2 = 0 ∨ right ≤ 5) :
    (rights fuel right).Pairwise fun x y => y + 2 ≤ x := by
  induction fuel generalizing right with
  | zero => exact .nil
  | succ fuel ih =>
    rw [rights]
    split
    · exact .nil
    · refine .cons (fun y hy => ?_) (ih (by split <;> omega))
      have := rights_spec (by split <;> omega) y hy
      omega

/-- The fuel is enough: the strips cover every column but one. -/
theorem length_rights {fuel right : Nat} (h : right % 2 = 0 ∨ right ≤ 5) (hfuel : right ≤ fuel) :
    (rights fuel right).length = (right + 1) / 2 := by
  induction fuel generalizing right with
  | zero => simp [rights, Nat.le_zero.mp hfuel]
  | succ fuel ih =>
    rw [rights]
    split
    · simp [*]
    · rw [List.length_cons, ih (by split <;> omega) (by split <;> omega)]
      split <;> omega

theorem mem_strip {size right : Nat} {upward : Bool} {p : Nat × Nat} (h : p ∈ strip size upward right) :
    p.1 < size ∧ (p.2 = right ∨ p.2 = right - 1) := by
  obtain ⟨v, hv, hp⟩ := List.mem_flatMap.mp h
  have := List.mem_range.mp hv
  have hrow : (if upward then size - 1 - v else v) < size := by split <;> omega
  obtain rfl | hp := List.mem_cons.mp hp
  · exact ⟨hrow, .inl rfl⟩
  · obtain rfl := List.mem_singleton.mp hp
    exact ⟨hrow, .inr rfl⟩

theorem nodup_strip {size right : Nat} (upward : Bool) (hright : 1 ≤ right) :
    (strip size upward right).Nodup := by
  refine List.nodup_flatMap.mpr ⟨fun v _ => ?_, ?_⟩
  · simp
    omega
  · refine List.nodup_range.imp_of_mem fun {v w} hv hw hne => ?_
    have := List.mem_range.mp hv
    have := List.mem_range.mp hw
    refine List.disjoint_left.mpr fun p hp hp' => ?_
    simp only [List.mem_cons, List.not_mem_nil, or_false] at hp hp'
    have hrow : p.1 = (if upward then size - 1 - v else v) ∧ p.1 = if upward then size - 1 - w else w := by
      obtain rfl | rfl := hp <;> obtain hp' | hp' := hp' <;> exact ⟨rfl, congrArg Prod.fst hp'⟩
    obtain ⟨h, h'⟩ := hrow
    rw [h] at h'
    split at h' <;> omega

theorem mem_zigzag {size : Nat} {upward : Bool} {columns : List Nat} {p : Nat × Nat}
    (h : p ∈ zigzag size upward columns) :
    p.1 < size ∧ ∃ x ∈ columns, p.2 = x ∨ p.2 = x - 1 := by
  induction columns generalizing upward with
  | nil => cases h
  | cons x columns ih =>
    obtain h | h := List.mem_append.mp h
    · obtain ⟨hrow, hcol⟩ := mem_strip h
      exact ⟨hrow, x, List.mem_cons_self, hcol⟩
    · obtain ⟨hrow, y, hy, hcol⟩ := ih h
      exact ⟨hrow, y, List.mem_cons_of_mem _ hy, hcol⟩

theorem nodup_zigzag {size : Nat} {columns : List Nat} (hpos : ∀ x ∈ columns, 1 ≤ x)
    (hgap : columns.Pairwise fun x y => y + 2 ≤ x) (upward : Bool) :
    (zigzag size upward columns).Nodup := by
  induction columns generalizing upward with
  | nil => exact .nil
  | cons x columns ih =>
    obtain ⟨hx, hrest⟩ := List.forall_mem_cons.mp hpos
    obtain ⟨hbelow, hgap⟩ := List.pairwise_cons.mp hgap
    refine List.nodup_append'.mpr ⟨nodup_strip upward hx, ih hrest hgap _, ?_⟩
    refine List.disjoint_left.mpr fun p hp hp' => ?_
    obtain ⟨-, hcol⟩ := mem_strip hp
    obtain ⟨-, y, hy, hcol'⟩ := mem_zigzag hp'
    have := hbelow y hy
    have := hrest y hy
    omega

theorem length_zigzag (size : Nat) (columns : List Nat) (upward : Bool) :
    (zigzag size upward columns).length = columns.length * (2 * size) := by
  induction columns generalizing upward with
  | nil => simp [zigzag]
  | cons x columns ih =>
    rw [zigzag, List.length_append, ih, List.length_cons, strip]
    simp [List.length_flatMap, Nat.add_mul, Nat.mul_comm, Nat.add_comm]

theorem nodup_cells {size : Nat} (hsize : size % 2 = 1) : (cells size).Nodup :=
  nodup_zigzag (fun x hx => (rights_spec (by omega) x hx).1) (rights_pairwise (by omega)) true

theorem mem_cells {size : Nat} (hsize : size % 2 = 1) {p : Nat × Nat} (h : p ∈ cells size) :
    p.1 < size ∧ p.2 < size ∧ p.2 ≠ 6 := by
  obtain ⟨hrow, x, hx, hcol⟩ := mem_zigzag h
  have := rights_spec (by omega) x hx
  omega

theorem length_cells {size : Nat} (hsize : size % 2 = 1) : (cells size).length = (size - 1) * size := by
  rw [cells, length_zigzag, length_rights (by omega) (Nat.sub_le size 1), ← Nat.mul_assoc]
  congr 1
  omega

/-! ### The function cells, and the room they leave -/

theorem isSome_paint (m : Matrix) (region on : Nat × Nat → Bool) (p : Nat × Nat) :
    (m.paint region on p).isSome = (region p || (m p).isSome) := by
  unfold Matrix.paint
  split <;> simp [*]

theorem isSome_set (m : Matrix) (cell : Nat × Nat) (v : Bool) (p : Nat × Nat) :
    (m.set cell v p).isSome = (decide (p = cell) || (m p).isSome) := by
  unfold Matrix.set
  split <;> simp [*]

theorem isSome_alignments (centers : List (Nat × Nat)) (m : Matrix) (p : Nat × Nat) :
    (centers.foldl Matrix.alignment m p).isSome = true ↔
      (∃ c ∈ centers, box (c.1 - 2) (c.1 + 3) (c.2 - 2) (c.2 + 3) p = true) ∨ (m p).isSome = true := by
  induction centers generalizing m with
  | nil => simp
  | cons center centers ih =>
    rw [List.foldl_cons, ih, Matrix.alignment, isSome_paint, List.exists_mem_cons_iff, Bool.or_eq_true, or_assoc]
    exact or_left_comm

/-- What is placed before the data. -/
theorem isFunction_iff (version : Nat) (p : Nat × Nat) :
    isFunction version p = true ↔
      (7 ≤ version ∧ versionArea (17 + 4 * version) p = true) ∨ formatArea (17 + 4 * version) p = true ∨
      p = (17 + 4 * version - 8, 8) ∨
      (∃ c ∈ centers version (17 + 4 * version), box (c.1 - 2) (c.1 + 3) (c.2 - 2) (c.2 + 3) p = true) ∨
      box 8 (17 + 4 * version - 8) 6 7 p = true ∨ box 6 7 8 (17 + 4 * version - 8) p = true ∨
      box (17 + 4 * version - 7 - 1) (min (17 + 4 * version) (17 + 4 * version - 7 + 8)) 0 8 p = true ∨
      box 0 8 (17 + 4 * version - 7 - 1) (min (17 + 4 * version) (17 + 4 * version - 7 + 8)) p = true ∨
      box 0 8 0 8 p = true := by
  have hmin : min (17 + 4 * version) 8 = 8 := by omega
  rw [isFunction, placeFunction]
  split
  all_goals
    simp only [isSome_paint, isSome_set, isSome_alignments, Matrix.finder, blankMatrix, Bool.or_eq_true,
      decide_eq_true_eq, *]
    simp

structure Area where
  r0 : Nat
  r1 : Nat
  c0 : Nat
  c1 : Nat

def Area.has (a : Area) : Nat × Nat → Bool := box a.r0 a.r1 a.c0 a.c1

/-- The cells of an area outside the timing column. -/
def Area.cells (a : Area) : Nat :=
  (a.r1 - a.r0) * (a.c1 - a.c0 - if a.c0 ≤ 6 ∧ 6 < a.c1 then 1 else 0)

/-- An alignment pattern, without the row of the timing where it lies on it. -/
def pieces (center : Nat × Nat) : List Area :=
  if center.1 = 6 then [⟨4, 6, center.2 - 2, center.2 + 3⟩, ⟨7, 9, center.2 - 2, center.2 + 3⟩]
  else [⟨center.1 - 2, center.1 + 3, center.2 - 2, center.2 + 3⟩]

/-- The function cells outside the timing column, in areas that do not overlap. -/
def areas (version : Nat) : List Area :=
  let size := 17 + 4 * version
  [⟨0, 9, 0, 9⟩, ⟨0, 9, size - 8, size⟩, ⟨size - 8, size, 0, 9⟩, ⟨6, 7, 9, size - 8⟩] ++
    (centers version size).flatMap pieces ++
    if 7 ≤ version then [⟨size - 11, size - 8, 0, 6⟩, ⟨0, 6, size - 11, size - 8⟩] else []

theorem has_pieces {version : Nat} {center p : Nat × Nat}
    (hcenter : center ∈ centers version (17 + 4 * version))
    (h : box (center.1 - 2) (center.1 + 3) (center.2 - 2) (center.2 + 3) p = true) :
    (∃ a ∈ pieces center, a.has p = true) ∨ p.1 = 6 ∧ 6 < p.2 ∧ p.2 < 17 + 4 * version - 7 := by
  have hskip := of_decide_eq_true (List.mem_filter.mp hcenter).2
  rw [box_iff] at h
  unfold pieces
  split
  case isTrue hrow =>
    obtain hlt | heq | hgt := lt_trichotomy p.1 6
    · refine .inl ⟨_, List.mem_cons_self, box_iff.mpr ?_⟩
      dsimp only
      omega
    · refine .inr ?_
      omega
    · refine .inl ⟨_, List.mem_cons_of_mem _ List.mem_cons_self, box_iff.mpr ?_⟩
      dsimp only
      omega
  case isFalse => exact .inl ⟨_, List.mem_singleton_self _, box_iff.mpr (box_iff.mp (box_iff.mpr h))⟩

theorem has_areas {version : Nat} {p : Nat × Nat} (h : isFunction version p = true)
    (hrow : p.1 < 17 + 4 * version) (hcol : p.2 < 17 + 4 * version) (hne : p.2 ≠ 6) :
    (areas version).any (Area.has · p) = true := by
  have hcorner : ∀ a ∈ [Area.mk 0 9 0 9, ⟨0, 9, 17 + 4 * version - 8, 17 + 4 * version⟩,
      ⟨17 + 4 * version - 8, 17 + 4 * version, 0, 9⟩, ⟨6, 7, 9, 17 + 4 * version - 8⟩], a.has p = true →
      (areas version).any (Area.has · p) = true := fun a ha hp =>
    List.any_eq_true.mpr ⟨a, List.mem_append_left _ (List.mem_append_left _ ha), hp⟩
  simp only [List.forall_mem_cons, Area.has, box_iff] at hcorner
  obtain ⟨htl, htr, hbl, htiming, -⟩ := hcorner
  rw [isFunction_iff] at h
  obtain ⟨hv, h⟩ | h | rfl | ⟨center, hcenter, h⟩ | h | h | h | h | h := h
  · have hversion : ∀ a ∈ [Area.mk (17 + 4 * version - 11) (17 + 4 * version - 8) 0 6,
        ⟨0, 6, 17 + 4 * version - 11, 17 + 4 * version - 8⟩], a.has p = true →
        (areas version).any (Area.has · p) = true := fun a ha hp =>
      List.any_eq_true.mpr ⟨a, List.mem_append_right _ (by rwa [if_pos hv]), hp⟩
    simp only [List.forall_mem_cons, Area.has] at hversion
    rw [versionArea, Bool.or_eq_true] at h
    obtain h | h := h
    · exact hversion.1 h
    · exact hversion.2.1 h
  · simp only [formatArea, Bool.or_eq_true, box_iff] at h
    obtain ((h | h) | h) | h := h
    · exact htl (by omega)
    · exact htl (by omega)
    · exact htr (by omega)
    · exact hbl (by omega)
  · exact hbl (by dsimp only; omega)
  · obtain ⟨a, ha, hp⟩ | h := has_pieces hcenter h
    · exact List.any_eq_true.mpr ⟨a, List.mem_append_left _ (List.mem_append_right _
        (List.mem_flatMap.mpr ⟨center, hcenter, ha⟩)), hp⟩
    · obtain hlt | hle := lt_or_ge p.2 9
      · exact htl (by omega)
      · obtain hlt | hle := lt_or_ge p.2 (17 + 4 * version - 8)
        · exact htiming (by omega)
        · exact htr (by omega)
  · rw [box_iff] at h
    omega
  · rw [box_iff] at h
    obtain hlt | hle := lt_or_ge p.2 9
    · exact htl (by omega)
    · exact htiming (by omega)
  · rw [box_iff] at h
    exact hbl (by omega)
  · rw [box_iff] at h
    exact htr (by omega)
  · rw [box_iff] at h
    exact htl (by omega)

theorem countP_area {l : List (Nat × Nat)} (hnodup : l.Nodup) (hcol : ∀ p ∈ l, p.2 ≠ 6) (a : Area) :
    l.countP a.has ≤ a.cells := by
  have hsub : (l.filter a.has).toFinset ⊆ Finset.Ico a.r0 a.r1 ×ˢ (Finset.Ico a.c0 a.c1).erase 6 := by
    intro p hp
    obtain ⟨hmem, hp⟩ := List.mem_filter.mp (List.mem_toFinset.mp hp)
    obtain ⟨hr, hc⟩ := box_iff.mp hp
    simp only [Finset.mem_product, Finset.mem_erase, Finset.mem_Ico]
    exact ⟨hr, hcol p hmem, hc⟩
  have hcard := Finset.card_le_card hsub
  rw [List.toFinset_card_of_nodup (hnodup.filter _), ← List.countP_eq_length_filter, Finset.card_product,
    Nat.card_Ico, Finset.card_erase_eq_ite, Nat.card_Ico] at hcard
  refine hcard.trans (Nat.mul_le_mul_left _ ?_)
  simp only [Finset.mem_Ico]
  split <;> omega

theorem countP_areas {l : List (Nat × Nat)} (hnodup : l.Nodup) (hcol : ∀ p ∈ l, p.2 ≠ 6) (as : List Area) :
    l.countP (fun p => as.any (Area.has · p)) ≤ (as.map Area.cells).sum := by
  induction as with
  | nil => simp
  | cons a as ih =>
    have hor : l.countP (fun p => (a :: as).any (Area.has · p)) ≤
        l.countP a.has + l.countP fun p => as.any (Area.has · p) := by
      clear ih hnodup hcol
      induction l with
      | nil => exact Nat.zero_le _
      | cons p l ih =>
        simp only [List.any_cons, List.countP_cons, Bool.or_eq_true] at ih ⊢
        split <;> split <;> split <;> simp_all <;> omega
    rw [List.map_cons, List.sum_cons]
    exact hor.trans (Nat.add_le_add (countP_area hnodup hcol a) ih)

/-- The cells of the data. -/
def dataCells (version : Nat) : List (Nat × Nat) :=
  (cells (17 + 4 * version)).filter fun p => !isFunction version p

/-- The codewords of a version have room in its symbol. -/
theorem room {version : Nat} (hpos : 1 ≤ version) (hle : version ≤ 10) :
    8 * ((VERSIONS version).dataCw + (VERSIONS version).ecPerBlock * (VERSIONS version).blocks) ≤
      (dataCells version).length := by
  have hodd : (17 + 4 * version) % 2 = 1 := by omega
  have htaken : (cells (17 + 4 * version)).countP (isFunction version) ≤ ((areas version).map Area.cells).sum := by
    refine (List.countP_mono_left fun p hp h => ?_).trans
      (countP_areas (nodup_cells hodd) (fun p hp => (mem_cells hodd hp).2.2) _)
    obtain ⟨hrow, hcol, hne⟩ := mem_cells hodd hp
    exact has_areas h hrow hcol hne
  have hsplit := List.length_eq_countP_add_countP (isFunction version) (l := cells (17 + 4 * version))
  have harith : 8 * ((VERSIONS version).dataCw + (VERSIONS version).ecPerBlock * (VERSIONS version).blocks) +
      ((areas version).map Area.cells).sum ≤ (17 + 4 * version - 1) * (17 + 4 * version) := by
    interval_cases version <;> decide
  rw [length_cells hodd] at hsplit
  have hdata : (dataCells version).length = (cells (17 + 4 * version)).countP fun p => ¬isFunction version p = true := by
    rw [dataCells, ← List.countP_eq_length_filter]
    simp
  rw [hdata]
  omega

end Cells

section Reading

theorem set_of_ne {m : Matrix} {cell p : Nat × Nat} (h : p ≠ cell) (v : Bool) : m.set cell v p = m p := if_neg h

theorem loop_of_not {m : Matrix} {rounds : List Nat} {cell : Nat → Nat × Nat} {p : Nat × Nat}
    (h : ∀ i ∈ rounds, p ≠ cell i) (v : Nat → Bool) : m.loop rounds cell v p = m p := by
  induction rounds generalizing m with
  | nil => rfl
  | cons i rounds ih =>
    obtain ⟨hi, hrest⟩ := List.forall_mem_cons.mp h
    exact (ih hrest).trans (set_of_ne hi _)

theorem loop_of_mem {m : Matrix} {rounds : List Nat} {c : Nat → Nat × Nat} {i : Nat} (hi : i ∈ rounds)
    (hinj : ∀ j ∈ rounds, c i = c j → i = j) (v : Nat → Bool) : m.loop rounds c v (c i) = some (v i) := by
  induction rounds generalizing m with
  | nil => cases hi
  | cons j rounds ih =>
    obtain ⟨hj, hrest⟩ := List.forall_mem_cons.mp hinj
    by_cases hmem : i ∈ rounds
    · exact ih hmem hrest
    · obtain rfl | hmem' := List.mem_cons.mp hi
      · have hlast := loop_of_not (m := m.set (c i) (v i)) (p := c i) (fun k hk heq =>
          hmem (hrest k hk heq ▸ hk)) v
        exact hlast.trans (if_pos rfl)
      · exact absurd hmem' hmem

/-! ### The data -/

theorem fill_of_some {p : Nat × Nat} {l : List (Nat × Nat)} {m : Matrix} (h : (m p).isSome ∨ p ∉ l)
    (bits : List Bool) : fill m l bits p = m p := by
  induction l generalizing m bits with
  | nil => rfl
  | cons q l ih =>
    rw [fill]
    split
    case isTrue hq => exact ih (h.imp_right fun hp hmem => hp (List.mem_cons_of_mem _ hmem)) bits
    case isFalse hq =>
      have hne : p ≠ q := by
        rintro rfl
        obtain h | h := h
        · exact hq h
        · exact h List.mem_cons_self
      rw [ih, set_of_ne hne]
      rw [set_of_ne hne]
      exact h.imp_right fun hp hmem => hp (List.mem_cons_of_mem _ hmem)

/-- The bits are read from the cells that were free, in the order of the filling. -/
theorem read_fill {l : List (Nat × Nat)} (hnodup : l.Nodup) (m : Matrix) (bits : List Bool)
    (hroom : bits.length ≤ (l.filter fun p => !(m p).isSome).length) :
    ∃ rest, (l.filter fun p => !(m p).isSome).map (fun p => (fill m l bits p).getD false) = bits ++ rest := by
  induction l generalizing m bits with
  | nil => exact ⟨[], by rw [List.length_eq_zero_iff.mp (Nat.le_zero.mp hroom)]; rfl⟩
  | cons q l ih =>
    obtain ⟨hq, hnodup⟩ := List.nodup_cons.mp hnodup
    by_cases hsome : (m q).isSome = true
    · rw [List.filter_cons_of_neg (by simp [hsome])] at hroom ⊢
      obtain ⟨rest, hrest⟩ := ih hnodup m bits hroom
      exact ⟨rest, by rw [← hrest]; simp only [fill, hsome, if_true]⟩
    · have hfree : (l.filter fun p => !(m p).isSome) =
          l.filter fun p => !((m.set q (bits.headD false)) p).isSome := by
        refine List.filter_congr fun p hp => ?_
        have hne : p ≠ q := fun heq => hq (heq ▸ hp)
        rw [set_of_ne hne]
      rw [List.filter_cons_of_pos (by simpa using hsome), List.length_cons, hfree] at hroom
      obtain ⟨rest, hrest⟩ := ih hnodup (m.set q (bits.headD false)) bits.tail (by
        rw [List.length_tail]
        omega)
      have hhead : fill m (q :: l) bits q = some (bits.headD false) := by
        rw [fill, if_neg hsome, fill_of_some (.inr hq), Matrix.set, if_pos rfl]
      have htail : (fun p => (fill m (q :: l) bits p).getD false) =
          fun p => (fill (m.set q (bits.headD false)) l bits.tail p).getD false := by
        funext p
        rw [fill, if_neg hsome]
      rw [List.filter_cons_of_pos (by simpa using hsome), List.map_cons, hhead, htail, hfree, hrest]
      cases bits with
      | nil => exact ⟨_, rfl⟩
      | cons b bits => exact ⟨rest, rfl⟩

/-! ### The format -/

/-- The place of bit `i` of the format, beside the first finder. -/
def formatCell (i : Nat) : Nat × Nat :=
  if i ≤ 5 then (i, 8) else if i = 6 then (7, 8) else if i = 7 then (8, 8) else if i = 8 then (8, 7) else (8, 14 - i)

def readFormat (m : Matrix) : Nat := reduce ((List.range 15).map fun k => (m (formatCell (14 - k))).getD false)

def readMask (m : Matrix) : Nat := (readFormat m ^^^ 0x5412) >>> 10

theorem bitLength_le_iff {v n : Nat} : bitLength v ≤ n ↔ v < 2 ^ n := by
  unfold bitLength
  split
  case isTrue hzero => simp [hzero]
  case isFalse hpos => exact Nat.log2_lt hpos

theorem testBit_bitLength {v k : Nat} (h : bitLength v = k + 1) : v.testBit k = true := by
  unfold bitLength at h
  split at h
  · cases h
  · rw [← Nat.succ.inj h]
    exact Nat.testBit_log2 ‹_›

/-- A round of the division takes the top bit away. -/
theorem bitLength_xor_lt {generator v : Nat} (hgen : 0 < bitLength generator)
    (hle : bitLength generator ≤ bitLength v) :
    bitLength (v ^^^ (generator <<< (bitLength v - bitLength generator))) < bitLength v := by
  obtain ⟨k, hk⟩ : ∃ k, bitLength v = k + 1 := ⟨bitLength v - 1, by omega⟩
  obtain ⟨g, hg⟩ : ∃ g, bitLength generator = g + 1 := ⟨bitLength generator - 1, by omega⟩
  rw [hk, Nat.lt_succ_iff, bitLength_le_iff]
  refine Nat.lt_pow_two_of_testBit _ fun i hi => ?_
  rw [Nat.testBit_xor, Nat.testBit_shiftLeft]
  obtain rfl | hlt := hi.eq_or_lt
  · rw [testBit_bitLength hk, show k - (k + 1 - bitLength generator) = g by omega, testBit_bitLength hg]
    simp
    omega
  · have hv : v < 2 ^ i := (bitLength_le_iff.mp hk.le).trans_le (Nat.pow_le_pow_right (by decide) hlt)
    have hshort : generator < 2 ^ (i - (k + 1 - bitLength generator)) :=
      bitLength_le_iff.mp (by omega)
    rw [Nat.testBit_lt_two_pow hv, Nat.testBit_lt_two_pow hshort]
    simp

/-- The fuel is enough: what is left is shorter than the generator. -/
theorem bitLength_bch_lt {value generator bitLen : Nat} (hgen : 0 < bitLength generator) :
    bitLength (bch value generator bitLen) < bitLength generator := by
  have hdivide : ∀ fuel v, bitLength v ≤ fuel → bitLength (divide generator fuel v) < bitLength generator := by
    intro fuel
    induction fuel with
    | zero => exact fun v hv => hv.trans_lt hgen
    | succ fuel ih =>
      intro v hv
      rw [divide]
      split
      case isTrue hle => exact ih _ (by have := bitLength_xor_lt hgen hle; omega)
      case isFalse hlt => exact not_le.mp hlt
  exact hdivide _ _ le_rfl

theorem cell_ne {p : Nat × Nat} {r c : Nat} (h : p.1 ≠ r ∨ p.2 ≠ c) : p ≠ (r, c) := by
  rintro rfl
  exact h.elim (· rfl) (· rfl)

/-- Copy 2 of the format leaves the cells of copy 1. -/
theorem applyFormat_near (m : Matrix) {size : Nat} (hsize : 21 ≤ size) (mask : Nat) {p : Nat × Nat}
    (hrow : p.1 ≤ 8) (hcol : p.2 ≤ 8) :
    applyFormat m size mask p =
      ((((m.loop (List.range' 0 6) (fun i => (i, 8)) (formatBits mask).testBit).set (7, 8)
        ((formatBits mask).testBit 6)).set (8, 8) ((formatBits mask).testBit 7)).set (8, 7)
        ((formatBits mask).testBit 8)).loop (List.range' 9 6) (fun i => (8, 14 - i)) (formatBits mask).testBit p := by
  rw [applyFormat, set_of_ne (cell_ne (by omega)), loop_of_not fun i hi => cell_ne ?_,
    loop_of_not fun i hi => cell_ne ?_]
  · have := List.mem_range'_1.mp hi
    omega
  · have := List.mem_range'_1.mp hi
    omega

theorem applyFormat_cell (m : Matrix) {size : Nat} (hsize : 21 ≤ size) (mask : Nat) {i : Nat} (hi : i < 15) :
    applyFormat m size mask (formatCell i) = some ((formatBits mask).testBit i) := by
  have hnear : (formatCell i).1 ≤ 8 ∧ (formatCell i).2 ≤ 8 := by
    unfold formatCell
    split_ifs <;> dsimp only <;> omega
  rw [applyFormat_near m hsize mask hnear.1 hnear.2]
  unfold formatCell
  split_ifs with h5 h6 h7 h8
  · rw [loop_of_not fun j hj => cell_ne ?_, set_of_ne (cell_ne ?_), set_of_ne (cell_ne ?_), set_of_ne (cell_ne ?_),
      loop_of_mem (c := fun i => (i, 8)) ?_ fun j _ heq => congrArg Prod.fst heq]
    · exact List.mem_range'_1.mpr (by omega)
    all_goals
      dsimp only
      omega
  · subst h6
    rfl
  · subst h7
    rfl
  · subst h8
    rfl
  · refine loop_of_mem (c := fun i => (8, 14 - i)) (List.mem_range'_1.mpr (by omega)) (fun j hj heq => ?_) _
    have := List.mem_range'_1.mp hj
    have := congrArg Prod.snd heq
    dsimp only at this
    omega

theorem applyFormat_of_not (m : Matrix) {size mask : Nat} {p : Nat × Nat} (hsize : 21 ≤ size)
    (h : ¬formatArea size p = true) : applyFormat m size mask p = m p := by
  simp only [formatArea, Bool.or_eq_true, box_iff] at h
  rw [applyFormat, set_of_ne (cell_ne ?_), loop_of_not fun i hi => cell_ne ?_,
    loop_of_not fun i hi => cell_ne ?_, loop_of_not fun i hi => cell_ne ?_, set_of_ne (cell_ne ?_),
    set_of_ne (cell_ne ?_), set_of_ne (cell_ne ?_), loop_of_not fun i hi => cell_ne ?_]
  all_goals
    try have := List.mem_range'_1.mp hi
    omega

theorem applyVersionInfo_of_not (m : Matrix) {size version : Nat} {p : Nat × Nat} (hsize : 11 ≤ size)
    (h : 7 ≤ version → ¬versionArea size p = true) : applyVersionInfo m size version p = m p := by
  rw [applyVersionInfo]
  split
  · rfl
  · have hnot := h (by omega)
    simp only [versionArea, Bool.or_eq_true, box_iff] at hnot
    generalize (version <<< 12) ||| bch version 0x1f25 13 = bits
    have hrounds : ∀ i ∈ List.range 18, i < 18 := fun i => List.mem_range.mp
    generalize List.range 18 = rounds at hrounds
    induction rounds generalizing m with
    | nil => rfl
    | cons i rounds ih =>
      obtain ⟨hi, hrest⟩ := List.forall_mem_cons.mp hrounds
      rw [List.foldl_cons, ih _ hrest, set_of_ne (cell_ne (by omega)), set_of_ne (cell_ne (by omega))]

/-- The mask stands in the format. -/
theorem readMask_applyFormat {mask : Nat} (hmask : mask < 8) {m : Matrix}
    (h : ∀ i < 15, m (formatCell i) = some ((formatBits mask).testBit i)) : readMask m = mask := by
  have hbits : readFormat m = reduce (push (formatBits mask) 15) := by
    rw [readFormat, push]
    congr 1
    refine List.map_congr_left fun k hk => ?_
    rw [h (14 - k) (by omega), Option.getD_some]
  rw [readMask, hbits]
  clear h hbits
  interval_cases mask <;> decide

/-! ### The symbol -/

/-- The bytes of a symbol, by the mask that its format names. -/
def readSymbol (s : Symbol) : Option (List UInt8) := do
  let version := (s.size - 17) / 4
  let f ← MASKS[readMask s.m]?
  let bits := (dataCells version).map fun p => ((s.m p).getD false).xor (f p.1 p.2)
  parse version (readBlocks version (slices bits))

variable {bytes : List UInt8} {version mask : Nat} {f : Nat → Nat → Bool}

theorem lt_of_mask (h : MASKS[mask]? = some f) : mask < 8 := (List.getElem?_eq_some_iff.mp h).1

theorem masked_formatCell (version : Nat) (codewords : List UInt8) (hpos : 1 ≤ version) {i : Nat} (hi : i < 15) :
    masked version codewords mask f (formatCell i) = some ((formatBits mask).testBit i) := by
  rw [masked, applyVersionInfo_of_not _ (by omega) fun hv => ?_, applyFormat_cell _ (by omega) _ hi]
  simp only [versionArea, Bool.or_eq_true, box_iff]
  unfold formatCell
  split_ifs <;> dsimp only <;> omega

/-- Where no function stands, the mask is over the data. -/
theorem masked_data (codewords : List UInt8) (hpos : 1 ≤ version) {p : Nat × Nat} (hp : p ∈ dataCells version) :
    ((masked version codewords mask f p).getD false).xor (f p.1 p.2) =
      (fill (placeFunction blankMatrix version (17 + 4 * version)) (cells (17 + 4 * version))
        (bitsOf codewords) p).getD false := by
  obtain ⟨hmem, hdata⟩ := List.mem_filter.mp hp
  have hnot : isFunction version p = false := by simpa using hdata
  obtain ⟨hrow, hcol, -⟩ := mem_cells (by omega) hmem
  have hareas := (isFunction_iff version p).not.mp (by simp [hnot])
  have hin : box 0 (17 + 4 * version) 0 (17 + 4 * version) p = true := box_iff.mpr (by omega)
  rw [masked, applyVersionInfo_of_not _ (by omega) fun hv harea => hareas (.inl ⟨hv, harea⟩),
    applyFormat_of_not _ (by omega) fun harea => hareas (.inr (.inl harea)), applyMask, Matrix.paint, hnot, hin,
    placeData]
  generalize fill _ _ _ p = cell
  cases f p.1 p.2 <;> simp

theorem read_masked (h : pickVersion bytes.length = .ok version) (hmask : MASKS[mask]? = some f) :
    readSymbol ⟨17 + 4 * version, masked version (interleave (buildCodewords bytes version) version) mask f⟩ =
      some bytes := by
  obtain ⟨hpos, hle, -⟩ := pickVersion_ok h
  have hsize : (17 + 4 * version - 17) / 4 = version := by omega
  have hread := readMask_applyFormat (lt_of_mask hmask) fun i hi =>
    masked_formatCell (f := f) version (interleave (buildCodewords bytes version) version) hpos hi
  obtain ⟨rest, hrest⟩ := read_fill (nodup_cells (show (17 + 4 * version) % 2 = 1 by omega))
    (placeFunction blankMatrix version (17 + 4 * version))
    (bitsOf (interleave (buildCodewords bytes version) version)) (by
      rw [length_bitsOf, length_stream h]
      exact room hpos hle)
  have hbits : (dataCells version).map (fun p =>
      ((masked version (interleave (buildCodewords bytes version) version) mask f p).getD false).xor
        (f p.1 p.2)) = bitsOf (interleave (buildCodewords bytes version) version) ++ rest :=
    (List.map_congr_left fun p hp => masked_data _ hpos hp).trans hrest
  simp only [readSymbol, hsize, hread, hmask]
  rw [Option.bind_eq_bind, Option.bind_some, hbits, slices_bitsOf, readBlocks_interleave h,
    parse_buildCodewords h]

/-- What the loop over the masks has after some of them. -/
def Best (version : Nat) (codewords : List UInt8) (masks : List Nat) (best : Option (Nat × Matrix)) : Prop :=
  (masks = [] ∧ best = none) ∨
  ∃ mask ∈ masks, ∃ f, MASKS[mask]? = some f ∧
    best = some (penalty (masked version codewords mask f) (17 + 4 * version), masked version codewords mask f) ∧
    ∀ mask' ∈ masks, ∀ f', MASKS[mask']? = some f' →
      penalty (masked version codewords mask f) (17 + 4 * version) ≤
        penalty (masked version codewords mask' f') (17 + 4 * version)

theorem Best.tryMask {codewords : List UInt8} {masks : List Nat} {best : Option (Nat × Matrix)}
    (h : Best version codewords masks best) (hmask : mask < 8) :
    ∃ best', tryMask version codewords best mask = .ok best' ∧ Best version codewords (masks ++ [mask]) best' := by
  have hf : MASKS[mask]? = some MASKS[mask] := List.getElem?_eq_getElem hmask
  refine ⟨_, by rw [qr.tryMask, hf]; rfl, .inr ?_⟩
  obtain ⟨rfl, rfl⟩ | ⟨kept, hkept, g, hg, rfl, hleast⟩ := h
  · refine ⟨mask, by simp, _, hf, rfl, ?_⟩
    rintro mask' hmem f' hf'
    obtain rfl := List.mem_singleton.mp hmem
    obtain rfl := Option.some.inj (hf.symm.trans hf')
    exact le_rfl
  · rw [Option.all_some]
    split
    case isTrue hlt =>
      refine ⟨mask, by simp, _, hf, rfl, ?_⟩
      rintro mask' hmem f' hf'
      obtain hmem | hmem := List.mem_append.mp hmem
      · exact (of_decide_eq_true hlt).le.trans (hleast mask' hmem f' hf')
      · obtain rfl := List.mem_singleton.mp hmem
        obtain rfl := Option.some.inj (hf.symm.trans hf')
        exact le_rfl
    case isFalse hnot =>
      refine ⟨kept, List.mem_append_left _ hkept, g, hg, rfl, ?_⟩
      rintro mask' hmem f' hf'
      obtain hmem | hmem := List.mem_append.mp hmem
      · exact hleast mask' hmem f' hf'
      · obtain rfl := List.mem_singleton.mp hmem
        obtain rfl := Option.some.inj (hf.symm.trans hf')
        exact not_lt.mp fun hlt => hnot (decide_eq_true hlt)

theorem Best.foldlM {codewords : List UInt8} {masks : List Nat} (hmasks : ∀ mask ∈ masks, mask < 8)
    {before : List Nat} {best : Option (Nat × Matrix)} (h : Best version codewords before best) :
    ∃ best', masks.foldlM (qr.tryMask version codewords) best = .ok best' ∧
      Best version codewords (before ++ masks) best' := by
  induction masks generalizing before best with
  | nil => exact ⟨best, rfl, by rwa [List.append_nil]⟩
  | cons mask masks ih =>
    obtain ⟨hmask, hrest⟩ := List.forall_mem_cons.mp hmasks
    obtain ⟨best', htry, h⟩ := h.tryMask hmask
    obtain ⟨best'', hfold, h⟩ := ih hrest h
    refine ⟨best'', ?_, by rwa [List.append_assoc] at h⟩
    rw [List.foldlM_cons, htry]
    exact hfold

theorem pickVersion_fits (h : bytes.length ≤ 213) : ∃ v, pickVersion bytes.length = .ok v := by
  unfold pickVersion
  split
  · exact ⟨_, rfl⟩
  next hnone =>
    have := List.find?_eq_none.mp hnone 10 (by decide)
    simp [countBits, VERSIONS] at this
    omega

/-- The symbol of bytes that fit is read back as these bytes, whichever mask is forced or found, and no mask
that was tried has a lower penalty. More bytes than the largest version has room for are refused. -/
theorem read_encode (bytes : List UInt8) (forceMask : Option Nat) (hforce : ∀ mask ∈ forceMask, mask < 8) :
    (bytes.length ≤ 213 → ∃ version s, encode bytes forceMask = .ok (some s) ∧ readSymbol s = some bytes ∧
      s.size = 17 + 4 * version ∧ ∀ mask f, (∀ forced ∈ forceMask, mask = forced) → MASKS[mask]? = some f →
        penalty s.m s.size ≤
          penalty (masked version (interleave (buildCodewords bytes version) version) mask f) s.size) ∧
    (213 < bytes.length → ∃ e, encode bytes forceMask = .error e) := by
  constructor
  · intro hfits
    obtain ⟨version, hversion⟩ := pickVersion_fits hfits
    have hmasks : ∀ mask ∈ forceMask.elim [0, 1, 2, 3, 4, 5, 6, 7] fun mask => [mask], mask < 8 := by
      cases forceMask with
      | none => decide
      | some mask => simpa using hforce mask
    have hne : (forceMask.elim [0, 1, 2, 3, 4, 5, 6, 7] fun mask => [mask]) ≠ [] := by
      cases forceMask <;> exact List.cons_ne_nil _ _
    have hbegin : Best version (interleave (buildCodewords bytes version) version) [] none := .inl ⟨rfl, rfl⟩
    obtain ⟨best, hfold, hbest⟩ := hbegin.foldlM hmasks
    obtain ⟨hnil, -⟩ | ⟨mask, hmem, f, hf, rfl, hleast⟩ := hbest
    · exact absurd hnil hne
    refine ⟨version, _, ?_, read_masked hversion hf, rfl, fun mask' f' hall hf' => hleast mask' ?_ f' hf'⟩
    · simp only [encode, hversion, bind, Except.bind]
      rw [hfold]
      rfl
    · cases forceMask with
      | none =>
        have := lt_of_mask hf'
        change mask' ∈ [0, 1, 2, 3, 4, 5, 6, 7]
        simp only [List.mem_cons, List.not_mem_nil, or_false]
        omega
      | some forced => exact List.mem_singleton.mpr (hall forced rfl)
  · intro hlong
    cases hpick : pickVersion bytes.length with
    | error e => exact ⟨e, by rw [encode, hpick]; rfl⟩
    | ok version =>
      obtain ⟨hpos, hle, hfit⟩ := pickVersion_ok hpick
      have hcap : (VERSIONS version).dataCw * 8 ≤ countBits version + 1712 := by
        interval_cases version <;> decide
      omega

theorem read_encode_forced : ∃ version s, encode [112, 99] (some 3) = .ok (some s) ∧
    readSymbol s = some [112, 99] ∧ s.size = 17 + 4 * version := by
  obtain ⟨version, s, hencode, hread, hsize, -⟩ := (read_encode [112, 99] (some 3) (by decide)).1 (by decide)
  exact ⟨version, s, hencode, hread, hsize⟩

end Reading

end pcoin.qr
