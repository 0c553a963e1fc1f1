import Mathlib.Algebra.BigOperators.Group.List.Basic
import Mathlib.Algebra.Ring.Nat

/-! Blocks written column by column, the short ones left out of the last columns, and read back. -/

namespace codec

variable {α : Type*}

/-- Column `i`, of the blocks that reach so far. -/
def column (blocks : List (List α)) (i : Nat) : List α := blocks.filterMap (·[i]?)

def interleave (blocks : List (List α)) (n : Nat) : List α := (List.range n).flatMap (column blocks)

/-- Hands column `i` out to the blocks that reach so far. -/
def deal (i : Nat) : List Nat → List (List α) → List α → List (List α)
  | len :: lens, block :: blocks, stream =>
    if i < len then (block ++ stream.take 1) :: deal i lens blocks (stream.drop 1)
    else block :: deal i lens blocks stream
  | _, _, _ => []

/-- The places that column `i` takes. -/
def width (lens : List Nat) (i : Nat) : Nat := lens.countP (i < ·)

/-- Reads `n` columns, after `i` that have been read into the blocks. -/
def deinterleave (lens : List Nat) : Nat → Nat → List (List α) → List α → List (List α)
  | 0, _, blocks, _ => blocks
  | n + 1, i, blocks, stream =>
    deinterleave lens n (i + 1) (deal i lens blocks stream) (stream.drop (width lens i))

theorem length_column (blocks : List (List α)) (i : Nat) :
    (column blocks i).length = width (blocks.map List.length) i := by
  induction blocks with
  | nil => rfl
  | cons block blocks ih =>
    unfold column width at *
    by_cases h : i < block.length
    · rw [List.filterMap_cons, List.getElem?_eq_getElem h, List.map_cons, List.countP_cons_of_pos (by simpa using h)]
      exact congrArg (· + 1) ih
    · rw [List.filterMap_cons, List.getElem?_eq_none (Nat.not_lt.mp h), List.map_cons,
        List.countP_cons_of_neg (by simpa using h)]
      exact ih

theorem deal_column (blocks : List (List α)) (i : Nat) (rest : List α) :
    deal i (blocks.map List.length) (blocks.map (List.take i)) (column blocks i ++ rest) =
      blocks.map (List.take (i + 1)) := by
  induction blocks with
  | nil => rfl
  | cons block blocks ih =>
    rw [List.map_cons, List.map_cons, List.map_cons, deal]
    by_cases h : i < block.length
    · have hcolumn : column (block :: blocks) i = block[i] :: column blocks i := by
        rw [column, List.filterMap_cons, List.getElem?_eq_getElem h]
        rfl
      rw [if_pos h, hcolumn, List.cons_append, List.take_succ_cons, List.drop_succ_cons, List.drop_zero,
        List.take_zero, ih, List.take_append_getElem h]
    · have hcolumn : column (block :: blocks) i = column blocks i := by
        rw [column, List.filterMap_cons, List.getElem?_eq_none (Nat.not_lt.mp h)]
        rfl
      rw [if_neg h, hcolumn, ih, List.take_of_length_le (Nat.not_lt.mp h), List.take_of_length_le (by omega)]

theorem deinterleave_from (blocks : List (List α)) (n i : Nat) (rest : List α) :
    deinterleave (blocks.map List.length) n i (blocks.map (List.take i))
        ((List.range' i n).flatMap (column blocks) ++ rest) = blocks.map (List.take (i + n)) := by
  induction n generalizing i with
  | zero => rfl
  | succ n ih =>
    rw [List.range'_succ, List.flatMap_cons, List.append_assoc, deinterleave, deal_column, ← length_column,
      List.drop_left, ih, Nat.add_right_comm, Nat.add_assoc]

/-- The blocks come back from their columns, whatever stands behind these. -/
theorem deinterleave_interleave {blocks : List (List α)} {n : Nat} (h : ∀ b ∈ blocks, b.length ≤ n)
    (rest : List α) :
    deinterleave (blocks.map List.length) n 0 (blocks.map fun _ => []) (interleave blocks n ++ rest) =
      blocks := by
  have hstart : blocks.map (fun _ => ([] : List α)) = blocks.map (List.take 0) :=
    List.map_congr_left fun _ _ => rfl
  rw [hstart, interleave, List.range_eq_range', deinterleave_from, Nat.zero_add]
  exact (List.map_congr_left fun b hb => List.take_of_length_le (h b hb)).trans (List.map_id' _)

theorem sum_lt (k n : Nat) : ((List.range n).map fun i => if i < k then 1 else 0).sum = min k n := by
  induction n with
  | zero => simp
  | succ n ih =>
    rw [List.range_succ, List.map_append, List.sum_append, ih, List.map_singleton, List.sum_singleton]
    split <;> omega

/-- Nothing is left out of the columns. -/
theorem length_interleave {blocks : List (List α)} {n : Nat} (h : ∀ b ∈ blocks, b.length ≤ n) :
    (interleave blocks n).length = (blocks.map List.length).sum := by
  induction blocks with
  | nil => simp [interleave, column]
  | cons block blocks ih =>
    obtain ⟨hblock, hrest⟩ := List.forall_mem_cons.mp h
    have hcolumn : ∀ i, (column (block :: blocks) i).length =
        (if i < block.length then 1 else 0) + (column blocks i).length := by
      intro i
      rw [length_column, length_column, List.map_cons, width, List.countP_cons, Nat.add_comm]
      simp [width]
    rw [List.map_cons, List.sum_cons, ← ih hrest, interleave, interleave, List.length_flatMap,
      List.length_flatMap, List.map_congr_left fun i _ => hcolumn i, List.sum_map_add, sum_lt,
      Nat.min_eq_left hblock]

end codec
