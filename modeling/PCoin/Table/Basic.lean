import Mathlib.Algebra.BigOperators.Group.List.Basic
import Mathlib.Data.List.Nodup
import Mathlib.Tactic.Abel

namespace table

/-- A text with a number, such as an outpoint, is a key. -/
instance lawfulBEq_key : LawfulBEq (String × Nat) := inferInstance

variable {α κ : Type*} [DecidableEq κ] (key : α → κ)

/-- `UPDATE` the rows with a key. -/
def update (k : κ) (f : α → α) (rows : List α) : List α :=
  rows.map fun r => if key r = k then f r else r

/-- The row with a key. -/
def find (k : κ) (rows : List α) : Option α := rows.find? (key · = k)

/-- `UPDATE` the row with a key, or `INSERT` a new one. -/
def upsert (k : κ) (f : α → α) (new : α) (rows : List α) : List α :=
  if k ∈ rows.map key then update key k f rows else rows ++ [new]

variable {key}

theorem find_spec {k : κ} {rows : List α} {r : α} (h : find key k rows = some r) :
    r ∈ rows ∧ key r = k :=
  ⟨List.mem_of_find?_eq_some h, by simpa using List.find?_some h⟩

theorem find_eq_none {k : κ} {rows : List α} (h : find key k rows = none) :
    ∀ r ∈ rows, key r ≠ k := by
  simpa [find] using h

theorem isSome_find {k : κ} {rows : List α} : (find key k rows).isSome = true ↔ k ∈ rows.map key := by
  simp [find, List.find?_isSome]

/-- A unique key finds its row. -/
theorem find_eq_some {rows : List α} (hnodup : (rows.map key).Nodup) {r : α} (hr : r ∈ rows) :
    find key (key r) rows = some r := by
  cases hfind : find key (key r) rows with
  | none => exact absurd rfl (find_eq_none hfind r hr)
  | some x =>
    obtain ⟨hx, hkey⟩ := find_spec hfind
    rw [List.inj_on_of_nodup_map hnodup hx hr hkey]

theorem filter_eq_nil {rows : List α} {k : κ} (hk : k ∉ rows.map key) :
    rows.filter (key · = k) = [] := by
  rw [List.filter_eq_nil_iff]
  intro r hr heq
  exact hk (List.mem_map.mpr ⟨r, hr, of_decide_eq_true heq⟩)

/-- Under a unique key at most one row is selected. -/
theorem filter_key_of_mem {rows : List α} (hnodup : (rows.map key).Nodup) {r : α} (hr : r ∈ rows) :
    rows.filter (key · = key r) = [r] := by
  induction rows with
  | nil => cases hr
  | cons x rows ih =>
    rw [List.map_cons, List.nodup_cons] at hnodup
    obtain ⟨hx, hnodup⟩ := hnodup
    obtain rfl | hr := List.mem_cons.mp hr
    · rw [List.filter_cons_of_pos (by simp), filter_eq_nil hx]
    · have hne : key x ≠ key r := fun hk => hx (hk ▸ List.mem_map.mpr ⟨r, hr, rfl⟩)
      rw [List.filter_cons_of_neg (by simpa using hne), ih hnodup hr]

/-- Under a unique key a row that meets a condition is the only one selected with it. -/
theorem filter_key_and {rows : List α} (hnodup : (rows.map key).Nodup) {r : α} (hr : r ∈ rows)
    {p : α → Prop} [DecidablePred p] (hp : p r) :
    (rows.filter fun x => key x = key r ∧ p x) = [r] := by
  have hand : (fun x => decide (key x = key r ∧ p x)) =
      fun x => decide (p x) && decide (key x = key r) := by
    funext x
    rw [Bool.decide_and, Bool.and_comm]
  rw [hand, ← List.filter_filter, filter_key_of_mem hnodup hr]
  simp [hp]

/-- A column that the update leaves as it is. -/
theorem map_update {β : Type*} {c : α → β} {k : κ} {f : α → α} {rows : List α}
    (hf : ∀ r ∈ rows, key r = k → c (f r) = c r) : (update key k f rows).map c = rows.map c := by
  rw [update, List.map_map]
  refine List.map_congr_left fun r hr => ?_
  simp only [Function.comp_apply]
  split
  · rename_i hk
    exact hf r hr hk
  · rfl

theorem keys_update {k : κ} {f : α → α} (hf : ∀ r, key r = k → key (f r) = key r)
    (rows : List α) : (update key k f rows).map key = rows.map key :=
  map_update fun r _ hk => hf r hk

theorem mem_update_of_ne {k : κ} {f : α → α} {rows : List α} {r : α} (hr : r ∈ rows)
    (hk : key r ≠ k) : r ∈ update key k f rows :=
  List.mem_map.mpr ⟨r, hr, if_neg hk⟩

theorem mem_update_self {f : α → α} {rows : List α} {r : α} (hr : r ∈ rows) :
    f r ∈ update key (key r) f rows :=
  List.mem_map.mpr ⟨r, hr, if_pos rfl⟩

omit [DecidableEq κ] in
/-- `INSERT` under a key that is not in use. -/
theorem nodup_append {rows : List α} (hnodup : (rows.map key).Nodup) {r : α}
    (hr : key r ∉ rows.map key) : ((rows ++ [r]).map key).Nodup := by
  rw [List.map_append, List.nodup_append]
  refine ⟨hnodup, List.nodup_singleton _, fun k hk k' hk' heq => ?_⟩
  rw [List.map_singleton, List.mem_singleton] at hk'
  exact hr (by rwa [← hk', ← heq])

/-- A row of the updated table is the updated one or an old one. -/
theorem mem_update {rows : List α} (hnodup : (rows.map key).Nodup) {r : α} (hr : r ∈ rows)
    {f : α → α} {x : α} (hx : x ∈ update key (key r) f rows) :
    x = f r ∨ (x ∈ rows ∧ key x ≠ key r) := by
  obtain ⟨y, hy, rfl⟩ := List.mem_map.mp hx
  by_cases hk : key y = key r
  · rw [if_pos hk, List.inj_on_of_nodup_map hnodup hy hr hk]
    exact .inl rfl
  · rw [if_neg hk]
    exact .inr ⟨hy, hk⟩

theorem update_of_not_mem {k : κ} {f : α → α} {rows : List α} (hk : ∀ r ∈ rows, key r ≠ k) :
    update key k f rows = rows := by
  conv_rhs => rw [← List.map_id rows]
  exact List.map_congr_left fun r hr => if_neg (hk r hr)

/-- An update of one row moves a sum over the table by the change of its own share, if the shares of
the other rows stay as they are. -/
theorem sum_update_of {M : Type*} [AddCommMonoid M] {rows : List α} (hnodup : (rows.map key).Nodup)
    {r : α} (hr : r ∈ rows) (f : α → α) {c c' : α → M} (hc : ∀ x ∈ rows, key x ≠ key r → c' x = c x) :
    ((update key (key r) f rows).map c').sum + c r = (rows.map c).sum + c' (f r) := by
  induction rows with
  | nil => cases hr
  | cons x rows ih =>
    rw [List.map_cons, List.nodup_cons] at hnodup
    obtain ⟨hx, hnodup⟩ := hnodup
    obtain rfl | hr := List.mem_cons.mp hr
    · have hne (y : α) (hy : y ∈ rows) : key y ≠ key r := fun hk =>
        hx (List.mem_map.mpr ⟨y, hy, hk⟩)
      have hcons : update key (key r) f (r :: rows) = f r :: update key (key r) f rows := by
        simp [update]
      have hrest : rows.map c' = rows.map c :=
        List.map_congr_left fun y hy => hc y (List.mem_cons_of_mem _ hy) (hne y hy)
      rw [hcons, update_of_not_mem hne]
      simp only [List.map_cons, List.sum_cons, hrest]
      abel
    · have hne : key x ≠ key r := fun hk => hx (hk ▸ List.mem_map.mpr ⟨r, hr, rfl⟩)
      have hcons : update key (key r) f (x :: rows) = x :: update key (key r) f rows := by
        simp [update, hne]
      have hrest := ih hnodup hr fun y hy => hc y (List.mem_cons_of_mem _ hy)
      rw [hcons]
      simp only [List.map_cons, List.sum_cons, add_assoc, hrest, hc x List.mem_cons_self hne]

theorem sum_update {M : Type*} [AddCommMonoid M] {rows : List α} (hnodup : (rows.map key).Nodup)
    {r : α} (hr : r ∈ rows) (f : α → α) (c : α → M) :
    ((update key (key r) f rows).map c).sum + c r = (rows.map c).sum + c (f r) :=
  sum_update_of hnodup hr f fun _ _ _ => rfl

/-- A sum over the rows that are selected. -/
theorem sum_filter {β M : Type*} [AddCommMonoid M] (p : β → Bool) (c : β → M) (rows : List β) :
    ((rows.filter p).map c).sum = (rows.map fun r => if p r then c r else 0).sum := by
  induction rows with
  | nil => rfl
  | cons x rows ih =>
    by_cases hp : p x = true
    · simp only [List.filter_cons_of_pos hp, List.map_cons, List.sum_cons, ih, if_pos hp]
    · simp only [List.filter_cons_of_neg hp, List.map_cons, List.sum_cons, ih, if_neg hp, zero_add]

/-- A sum over the table is that of a row and that of the others. -/
theorem sum_eq_add {M : Type*} [AddCommMonoid M] {rows : List α} (hnodup : (rows.map key).Nodup) {r : α}
    (hr : r ∈ rows) (c : α → M) :
    (rows.map c).sum = c r + ((rows.filter (key · ≠ key r)).map c).sum := by
  induction rows with
  | nil => cases hr
  | cons x rows ih =>
    rw [List.map_cons, List.nodup_cons] at hnodup
    obtain ⟨hx, hnodup⟩ := hnodup
    obtain rfl | hr := List.mem_cons.mp hr
    · have hrest : rows.filter (key · ≠ key r) = rows :=
        List.filter_eq_self.mpr fun y hy =>
          decide_eq_true fun hk => hx (List.mem_map.mpr ⟨y, hy, hk⟩)
      rw [List.filter_cons_of_neg (by simp), hrest, List.map_cons, List.sum_cons]
    · have hne : key x ≠ key r := fun hk => hx (List.mem_map.mpr ⟨r, hr, hk.symm⟩)
      rw [List.filter_cons_of_pos (by simpa using hne), List.map_cons, List.sum_cons, ih hnodup hr,
        List.map_cons, List.sum_cons]
      abel

/-- A loop of updates is one pass over the table in which each row takes the updates made
for its key. -/
theorem foldl_update {β : Type*} (k : β → κ) (f : β → α → α)
    (hf : ∀ x r, key (f x r) = key r) (xs : List β) (rows : List α) :
    xs.foldl (fun rows x => update key (k x) (f x) rows) rows =
      rows.map fun r => (xs.filter (k · = key r)).foldl (fun r x => f x r) r := by
  induction xs generalizing rows with
  | nil => simp
  | cons x xs ih =>
    rw [List.foldl_cons, ih, update, List.map_map]
    refine List.map_congr_left fun r _ => ?_
    by_cases hk : key r = k x
    · simp [hk, hf]
    · simp [hk, Ne.symm hk]

end table
