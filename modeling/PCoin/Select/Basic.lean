import Mathlib.Algebra.BigOperators.Group.List.Basic
import Mathlib.Algebra.Order.BigOperators.Group.List
import Mathlib.Algebra.Order.Monoid.Defs
import Mathlib.Algebra.Order.Ring.Defs
import Mathlib.Data.List.Nodup
import Mathlib.Data.List.Perm.Subperm
import Mathlib.Tactic.Linarith
import Mathlib.Tactic.Ring

namespace select

variable {M : Type} [AddCommMonoid M] [LinearOrder M] [IsOrderedAddMonoid M]

/-- As many values from the front of a falling list, one larger value put before it. -/
theorem sum_take_le_cons {a : M} {l : List M} (ha : ∀ b ∈ l, b ≤ a) {k : Nat} (hk : k ≤ l.length) :
    (l.take k).sum ≤ ((a :: l).take k).sum := by
  cases k with
  | zero => simp
  | succ k =>
    have hlast : l[k] ≤ a := ha _ (List.getElem_mem hk)
    rw [List.take_succ_cons, List.take_succ_eq_append_getElem hk, List.sum_append, List.sum_singleton,
      List.sum_cons, add_comm a]
    exact add_le_add_right hlast _

/-- No choice of values is worth more than as many from the front of a falling list. -/
theorem sum_le_sum_take {s l : List M} (hl : l.Pairwise (· ≥ ·)) (hs : s.Sublist l) :
    s.sum ≤ (l.take s.length).sum := by
  induction hs with
  | slnil => simp
  | cons a hs ih =>
    rw [List.pairwise_cons] at hl
    exact (ih hl.2).trans (sum_take_le_cons hl.1 hs.length_le)
  | cons_cons a hs ih =>
    rw [List.pairwise_cons] at hl
    rw [List.length_cons, List.take_succ_cons, List.sum_cons, List.sum_cons]
    exact add_le_add_right (ih hl.2) a

/-- The same for a choice in any order, by what each item is worth. -/
theorem sum_map_le_sum_take {α : Type} (worth : α → M) {s l : List α}
    (hl : l.Pairwise fun a b => worth b ≤ worth a) (hs : s.Subperm l) :
    (s.map worth).sum ≤ ((l.take s.length).map worth).sum := by
  obtain ⟨s', hperm, hsub⟩ := hs
  have hsorted : (l.map worth).Pairwise (· ≥ ·) := List.pairwise_map.mpr hl
  have := sum_le_sum_take hsorted (hsub.map worth)
  rwa [List.length_map, hperm.length_eq, ← List.map_take, (hperm.map worth).sum_eq] at this

/-- What is among the first `n` of a sorted list: what fewer than `n` of it come before. -/
theorem mem_take_iff {α : Type} {r : α → α → Prop} [DecidableRel r] (hasymm : ∀ a b, r a b → ¬ r b a)
    {l : List α} (hl : l.Pairwise r) {x : α} (hx : x ∈ l) (n : Nat) :
    x ∈ l.take n ↔ (l.filter (r · x)).length < n := by
  induction l generalizing n with
  | nil => cases hx
  | cons a l ih =>
    rw [List.pairwise_cons] at hl
    cases n with
    | zero => simp
    | succ n =>
      rw [List.take_succ_cons, List.mem_cons]
      by_cases hax : x = a
      · subst hax
        have hnone : (x :: l).filter (r · x) = [] := by
          apply List.filter_eq_nil_iff.mpr
          intro y hy hyx
          have hyx : r y x := of_decide_eq_true hyx
          obtain rfl | hy := List.mem_cons.mp hy
          · exact hasymm _ _ hyx hyx
          · exact hasymm _ _ hyx (hl.1 y hy)
        rw [hnone]
        simp
      · have hmem := List.mem_of_ne_of_mem hax hx
        have hfirst : (a :: l).filter (r · x) = a :: l.filter (r · x) :=
          List.filter_cons_of_pos (decide_eq_true (hl.1 x hmem))
        rw [hfirst, List.length_cons, Nat.succ_lt_succ_iff, ← ih hl.2 hmem, or_iff_right hax]

end select

namespace drain

/-! ### Draws -/

variable {κ α : Type*} [CommRing α] {bins draws : List (κ × α)}

def total (draws : List (κ × α)) : α := (draws.map Prod.snd).sum

def drawn [DecidableEq κ] (draws : List (κ × α)) (k : κ) : α :=
  ((draws.filter (·.1 = k)).map Prod.snd).sum

@[simp] theorem total_nil : total ([] : List (κ × α)) = 0 := rfl

@[simp] theorem total_cons (d : κ × α) (draws : List (κ × α)) : total (d :: draws) = d.2 + total draws := by
  simp [total]

@[simp] theorem drawn_nil [DecidableEq κ] (k : κ) : drawn ([] : List (κ × α)) k = 0 := rfl

theorem drawn_cons_self [DecidableEq κ] (d : κ × α) (draws : List (κ × α)) :
    drawn (d :: draws) d.1 = d.2 + drawn draws d.1 := by
  simp [drawn]

theorem drawn_cons_of_ne [DecidableEq κ] {d : κ × α} {k : κ} (h : d.1 ≠ k) (draws : List (κ × α)) :
    drawn (d :: draws) k = drawn draws k := by
  simp [drawn, h]

theorem drawn_of_not_mem [DecidableEq κ] {k : κ} (h : k ∉ draws.map Prod.fst) : drawn draws k = 0 := by
  have hnone : draws.filter (·.1 = k) = [] := by
    apply List.filter_eq_nil_iff.mpr
    intro d hd hk
    exact h (List.mem_map.mpr ⟨d, hd, of_decide_eq_true hk⟩)
  rw [drawn, hnone]
  rfl

/-- What the bins have after the draws. -/
def rest [DecidableEq κ] (bins draws : List (κ × α)) : List (κ × α) := bins.map fun b => (b.1, b.2 - drawn draws b.1)

theorem rest_cons [DecidableEq κ] (b : κ × α) (bins draws : List (κ × α)) :
    rest (b :: bins) draws = (b.1, b.2 - drawn draws b.1) :: rest bins draws := rfl

/-- A draw from a bin that is not there leaves the bins. -/
theorem rest_cons_of_not_mem [DecidableEq κ] {d : κ × α} (h : d.1 ∉ bins.map Prod.fst) (draws : List (κ × α)) :
    rest bins (d :: draws) = rest bins draws := by
  apply List.map_congr_left
  intro b hb
  rw [drawn_cons_of_ne fun heq => h (heq ▸ List.mem_map_of_mem hb)]

variable [LinearOrder α]

/-- Draws that empty the bins in their order, up to a last bin. -/
inductive Drains : List (κ × α) → List (κ × α) → Prop
  | stop (bins : List (κ × α)) : Drains bins []
  | skip {b : κ × α} {bins draws : List (κ × α)} (h : b.2 ≤ 0) (rest : Drains bins draws) :
    Drains (b :: bins) draws
  | part {b : κ × α} {bins : List (κ × α)} {u : α} (hpos : 0 < u) (hlt : u < b.2) :
    Drains (b :: bins) [(b.1, u)]
  | whole {b : κ × α} {bins draws : List (κ × α)} (h : 0 < b.2) (rest : Drains bins draws) :
    Drains (b :: bins) (b :: draws)

/-- The draws that get so much out of the bins, from the first bin on. -/
def greedy (want : α) : List (κ × α) → List (κ × α)
  | [] => []
  | b :: bins =>
    if want ≤ 0 then []
    else if b.2 ≤ 0 then greedy want bins
    else (b.1, min b.2 want) :: greedy (want - min b.2 want) bins

/-- What the bins hold; one that is overdrawn holds nothing. -/
def stock (bins : List (κ × α)) : α := (bins.map fun b => max b.2 0).sum

@[simp] theorem stock_nil : stock ([] : List (κ × α)) = 0 := rfl

@[simp] theorem stock_cons (b : κ × α) (bins : List (κ × α)) :
    stock (b :: bins) = max b.2 0 + stock bins := by
  simp [stock]

theorem greedy_of_nonpos {want : α} (h : want ≤ 0) (bins : List (κ × α)) : greedy want bins = [] := by
  cases bins with
  | nil => rfl
  | cons b bins => rw [greedy, if_pos h]

/-! ### The keys -/

theorem Drains.keys (h : Drains bins draws) :
    (draws.map Prod.fst).Sublist (bins.map Prod.fst) := by
  induction h with
  | stop bins => exact List.nil_sublist _
  | skip _ _ ih => exact ih.cons _
  | part _ _ => exact (List.nil_sublist _).cons_cons _
  | whole _ _ ih => exact ih.cons_cons _

theorem Drains.mem (h : Drains bins draws) :
    ∀ d ∈ draws, ∃ b ∈ bins, b.1 = d.1 ∧ 0 < d.2 ∧ d.2 ≤ b.2 := by
  induction h with
  | stop bins => exact fun d hd => nomatch hd
  | skip _ _ ih =>
    intro d hd
    obtain ⟨b, hb, hspec⟩ := ih d hd
    exact ⟨b, List.mem_cons_of_mem _ hb, hspec⟩
  | part hpos hlt =>
    intro d hd
    obtain rfl := List.mem_singleton.mp hd
    exact ⟨_, List.mem_cons_self, rfl, hpos, hlt.le⟩
  | whole hpos _ ih =>
    intro d hd
    obtain rfl | hd := List.mem_cons.mp hd
    · exact ⟨d, List.mem_cons_self, rfl, hpos, le_refl _⟩
    · obtain ⟨b, hb, hspec⟩ := ih d hd
      exact ⟨b, List.mem_cons_of_mem _ hb, hspec⟩

/-- A bin that is not among the rest keeps what it has. -/
theorem Drains.drawn_first [DecidableEq κ] {b : κ × α} (h : Drains bins draws) (hb : b.1 ∉ bins.map Prod.fst) :
    drawn draws b.1 = 0 :=
  drawn_of_not_mem fun hmem => hb (h.keys.subset hmem)

/-- The bins before the last that is drawn from are empty. -/
theorem Drains.before [DecidableEq κ] (h : Drains bins draws) (hnodup : (bins.map Prod.fst).Nodup)
    {pre post : List (κ × α)} {b d : κ × α} (hbins : bins = pre ++ b :: post)
    (hlast : draws.getLast? = some d) (hkey : d.1 = b.1) :
    ∀ c ∈ pre, c.2 - drawn draws c.1 ≤ 0 := by
  induction h generalizing pre with
  | stop bins => cases hlast
  | @skip a bins draws hle rest ih =>
    rw [List.map_cons, List.nodup_cons] at hnodup
    cases pre with
    | nil => exact fun c hc => nomatch hc
    | cons c pre =>
      obtain ⟨rfl, htail⟩ := List.cons.inj hbins
      rw [List.forall_mem_cons, rest.drawn_first hnodup.1, sub_zero]
      exact ⟨hle, ih hnodup.2 htail hlast⟩
  | @part a bins u hpos hlt =>
    rw [List.map_cons, List.nodup_cons] at hnodup
    cases pre with
    | nil => exact fun c hc => nomatch hc
    | cons c pre =>
      obtain ⟨rfl, rfl⟩ := List.cons.inj hbins
      obtain rfl := Option.some.inj hlast
      exact absurd (List.mem_map.mpr ⟨b, by simp, hkey.symm⟩) hnodup.1
  | @whole a bins draws hpos rest ih =>
    rw [List.map_cons, List.nodup_cons] at hnodup
    cases pre with
    | nil => exact fun c hc => nomatch hc
    | cons c pre =>
      obtain ⟨rfl, rfl⟩ := List.cons.inj hbins
      have hb : b.1 ∈ (pre ++ b :: post).map Prod.fst := List.mem_map.mpr ⟨b, by simp, rfl⟩
      rw [List.forall_mem_cons, drawn_cons_self, rest.drawn_first hnodup.1, add_zero, sub_self]
      refine ⟨le_refl _, fun x hx => ?_⟩
      rw [drawn_cons_of_ne fun heq => hnodup.1 (List.mem_map.mpr ⟨x, by simp [hx], heq.symm⟩)]
      cases draws with
      | nil =>
        obtain rfl := Option.some.inj hlast
        exact absurd (hkey ▸ hb) hnodup.1
      | cons e draws => exact ih hnodup.2 rfl hlast x hx

theorem greedy_drains (want : α) (bins : List (κ × α)) : Drains bins (greedy want bins) := by
  induction bins generalizing want with
  | nil => exact .stop []
  | cons b bins ih =>
    rw [greedy]
    split
    · exact .stop _
    · split
      · rename_i hle
        exact .skip hle (ih want)
      · rename_i hwant hpos
        rw [not_le] at hwant hpos
        obtain hle | hlt := le_or_gt b.2 want
        · rw [min_eq_left hle]
          exact .whole hpos (ih _)
        · rw [min_eq_right hlt.le, greedy_of_nonpos (sub_self want).le]
          exact .part hwant hlt

/-! ### The totals -/

variable [IsStrictOrderedRing α]

theorem stock_nonneg (bins : List (κ × α)) : 0 ≤ stock bins := by
  apply List.sum_nonneg
  intro x hx
  obtain ⟨b, -, rfl⟩ := List.mem_map.mp hx
  exact le_max_right _ _

theorem Drains.total_nonneg (h : Drains bins draws) : 0 ≤ total draws := by
  apply List.sum_nonneg
  intro x hx
  obtain ⟨d, hd, rfl⟩ := List.mem_map.mp hx
  obtain ⟨b, -, -, hpos, -⟩ := h.mem d hd
  exact hpos.le

theorem Drains.total_le_stock (h : Drains bins draws) : total draws ≤ stock bins := by
  induction h with
  | stop bins => exact stock_nonneg bins
  | skip hle _ ih => rwa [stock_cons, max_eq_right hle, zero_add]
  | @part b bins u hpos hlt =>
    have hrest := stock_nonneg bins
    rw [total_cons, total_nil, stock_cons, max_eq_left (hpos.trans hlt).le]
    linarith
  | whole hpos _ ih =>
    rw [total_cons, stock_cons, max_eq_left hpos.le]
    linarith

/-! ### The greedy draws -/

theorem total_greedy (want : α) (bins : List (κ × α)) :
    total (greedy want bins) = min (max want 0) (stock bins) := by
  induction bins generalizing want with
  | nil => simp [greedy]
  | cons b bins ih =>
    have hrest := stock_nonneg bins
    rw [greedy, stock_cons]
    split
    · rename_i hwant
      rw [max_eq_right hwant, total_nil, min_eq_left (add_nonneg (le_max_right _ _) hrest)]
    · rename_i hwant
      rw [not_le] at hwant
      rw [max_eq_left hwant.le]
      split
      · rename_i hle
        rw [ih, max_eq_left hwant.le, max_eq_right hle, zero_add]
      · rename_i hpos
        rw [not_le] at hpos
        rw [total_cons, ih, max_eq_left hpos.le]
        obtain hle | hlt := le_or_gt b.2 want
        · rw [min_eq_left hle, max_eq_left (sub_nonneg.mpr hle), ← min_add_add_left, add_sub_cancel]
        · rw [min_eq_right hlt.le, sub_self, max_self, min_eq_left hrest, add_zero, min_eq_left]
          linarith

/-! ### What is left -/

theorem stock_eq_zero_iff : stock bins = 0 ↔ ∀ b ∈ bins, b.2 ≤ 0 := by
  induction bins with
  | nil => simp
  | cons b bins ih =>
    have hrest := stock_nonneg bins
    have hfirst := le_max_right b.2 0
    rw [stock_cons, List.forall_mem_cons, ← ih, add_eq_zero_iff_of_nonneg hfirst hrest, max_eq_right_iff]

variable [DecidableEq κ]

theorem stock_rest (h : Drains bins draws) (hnodup : (bins.map Prod.fst).Nodup) :
    stock (rest bins draws) = stock bins - total draws := by
  induction h with
  | stop bins => simp [rest]
  | skip hle hdraws ih =>
    rw [List.map_cons, List.nodup_cons] at hnodup
    rw [rest_cons, stock_cons, hdraws.drawn_first hnodup.1, sub_zero, ih hnodup.2, stock_cons,
      add_sub_assoc]
  | @part b bins u hpos hlt =>
    rw [List.map_cons, List.nodup_cons] at hnodup
    have hfirst := drawn_cons_self (b.1, u) []
    dsimp only at hfirst
    have hothers : rest bins [(b.1, u)] = bins := by
      have hkey : (b.1, u).1 ∉ bins.map Prod.fst := hnodup.1
      rw [rest_cons_of_not_mem hkey]
      simp [rest]
    rw [rest_cons, hothers, hfirst, drawn_nil, add_zero, stock_cons, stock_cons, total_cons, total_nil,
      add_zero, max_eq_left (sub_pos.mpr hlt).le, max_eq_left (hpos.trans hlt).le]
    ring
  | whole hpos hdraws ih =>
    rw [List.map_cons, List.nodup_cons] at hnodup
    rw [rest_cons, rest_cons_of_not_mem hnodup.1, drawn_cons_self, hdraws.drawn_first hnodup.1, add_zero,
      sub_self, stock_cons, ih hnodup.2, stock_cons, total_cons, max_self, max_eq_left hpos.le]
    ring

/-- Nothing is left in any bin just when all of the stock is drawn. -/
theorem Drains.left_iff (h : Drains bins draws) (hnodup : (bins.map Prod.fst).Nodup) :
    (∀ b ∈ bins, b.2 - drawn draws b.1 ≤ 0) ↔ total draws = stock bins := by
  have hzero : stock (rest bins draws) = 0 ↔ ∀ b ∈ rest bins draws, b.2 ≤ 0 := stock_eq_zero_iff
  rw [stock_rest h hnodup, rest, List.forall_mem_map] at hzero
  rw [← hzero, sub_eq_zero]
  exact eq_comm

end drain
