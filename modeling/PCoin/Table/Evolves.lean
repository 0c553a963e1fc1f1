import PCoin.Table.Basic

namespace table

variable {α κ : Type*} [DecidableEq κ] {key : α → κ}

theorem find_update {k : κ} {f : α → α} (hf : ∀ r, key r = k → key (f r) = k) (rows : List α) :
    find key k (update key k f rows) = (find key k rows).map f := by
  induction rows with
  | nil => rfl
  | cons r rows ih =>
    by_cases hk : key r = k
    · simp [find, update, hk, hf r hk]
    · have hcons : update key k f (r :: rows) = r :: update key k f rows := by simp [update, hk]
      simpa [find, hcons, hk] using ih

theorem find_update_of_ne {k k' : κ} (hne : k' ≠ k) {f : α → α}
    (hf : ∀ r, key r = k → key (f r) = k) (rows : List α) :
    find key k' (update key k f rows) = find key k' rows := by
  induction rows with
  | nil => rfl
  | cons r rows ih =>
    by_cases hk : key r = k
    · have hcons : update key k f (r :: rows) = f r :: update key k f rows := by simp [update, hk]
      simpa [find, hcons, hf r hk, hk, hne.symm] using ih
    · have hcons : update key k f (r :: rows) = r :: update key k f rows := by simp [update, hk]
      by_cases hk' : key r = k'
      · simp [find, hcons, hk']
      · simpa [find, hcons, hk'] using ih

/-- What an update makes of the row with a key. -/
theorem find_update_cases {k k' : κ} {f : α → α} {rows : List α} {r r' : α}
    (hr : find key k' rows = some r) (hr' : find key k' (update key k f rows) = some r')
    (hf : ∀ r, key r = k → key (f r) = k) : (k' = k ∧ r' = f r) ∨ r' = r := by
  by_cases hk : k' = k
  · subst hk
    rw [find_update hf, hr, Option.map_some] at hr'
    exact .inl ⟨rfl, (Option.some.inj hr').symm⟩
  · rw [find_update_of_ne hk hf, hr] at hr'
    exact .inr (Option.some.inj hr').symm

theorem find_map {f : α → α} (hf : ∀ r, key (f r) = key r) (k : κ) (rows : List α) :
    find key k (rows.map f) = (find key k rows).map f := by
  induction rows with
  | nil => rfl
  | cons r rows ih =>
    by_cases hk : key r = k
    · simp [find, hk, hf r]
    · simpa [find, hk, hf r] using ih

theorem find_append {k : κ} {rows : List α} {r : α} (h : find key k rows = some r)
    (rows' : List α) : find key k (rows ++ rows') = some r := by
  rw [find, List.find?_append]
  rw [find] at h
  rw [h, Option.some_or]

theorem find_upsert {k : κ} {new : α} (hnew : key new = k) (rows : List α) :
    find key k (upsert key k (fun _ => new) new rows) = some new := by
  unfold upsert
  split
  · rename_i hk
    obtain ⟨r, hr⟩ := Option.isSome_iff_exists.mp (isSome_find.mpr hk)
    rw [find_update fun _ _ => hnew, hr, Option.map_some]
  · rename_i hk
    have hnone : find key k rows = none := by
      rw [← Option.not_isSome_iff_eq_none, isSome_find]
      exact hk
    rw [find] at hnone ⊢
    rw [List.find?_append, hnone, Option.none_or, List.find?_singleton, if_pos (decide_eq_true hnew)]

theorem mem_upsert {k : κ} {new r : α} {rows : List α}
    (hr : r ∈ upsert key k (fun _ => new) new rows) : r = new ∨ r ∈ rows := by
  unfold upsert at hr
  split at hr
  · obtain ⟨x, hx, rfl⟩ := List.mem_map.mp hr
    split
    · exact .inl rfl
    · exact .inr hx
  · obtain hr | hr := List.mem_append.mp hr
    · exact .inr hr
    · exact .inl (List.mem_singleton.mp hr)

theorem find_upsert_of_ne {k k' : κ} (hne : k' ≠ k) {new : α} (hnew : key new = k) (rows : List α) :
    find key k' (upsert key k (fun _ => new) new rows) = find key k' rows := by
  unfold upsert
  split
  · exact find_update_of_ne hne (fun _ _ => hnew) rows
  · have hother : key new ≠ k' := fun heq => hne (heq.symm.trans hnew)
    rw [find, find, List.find?_append, List.find?_singleton, if_neg (by simpa using hother),
      Option.or_none]

/-- Where the update leaves a column as it is, the rows have it from the rows before. -/
theorem exists_of_mem_update {β : Type*} {c : α → β} {k : κ} {f : α → α} (hf : ∀ r, c (f r) = c r)
    {rows : List α} {r : α} (hr : r ∈ update key k f rows) : ∃ x ∈ rows, c x = c r := by
  have hmap : (update key k f rows).map c = rows.map c := map_update fun r _ _ => hf r
  exact List.mem_map.mp (hmap ▸ List.mem_map_of_mem hr)

variable (key) in
/-- Every row is still there, and has only changed as `R` allows. -/
def Evolves (R : α → α → Prop) (rows rows' : List α) : Prop :=
  ∀ k r, find key k rows = some r → ∃ r', find key k rows' = some r' ∧ R r r'

namespace Evolves

variable {R : α → α → Prop} {rows rows' rows'' : List α}

theorem refl (hrefl : ∀ r, R r r) (rows : List α) : Evolves key R rows rows :=
  fun _ r hr => ⟨r, hr, hrefl r⟩

theorem trans (htrans : ∀ {r r' r''}, R r r' → R r' r'' → R r r'') (h : Evolves key R rows rows')
    (h' : Evolves key R rows' rows'') : Evolves key R rows rows'' := by
  intro k r hr
  obtain ⟨r', hr', hR⟩ := h k r hr
  obtain ⟨r'', hr'', hR'⟩ := h' k r' hr'
  exact ⟨r'', hr'', htrans hR hR'⟩

/-- An update evolves the table when it evolves the row it is for. -/
theorem update (hrefl : ∀ r, R r r) {k : κ} {f : α → α} (hf : ∀ r, key r = k → key (f r) = k)
    (hR : ∀ r, find key k rows = some r → R r (f r)) :
    Evolves key R rows (table.update key k f rows) := by
  intro k' r hr
  by_cases hk : k' = k
  · subst hk
    exact ⟨f r, by rw [find_update hf, hr, Option.map_some], hR r hr⟩
  · exact ⟨r, by rw [find_update_of_ne hk hf, hr], hrefl r⟩

theorem append (hrefl : ∀ r, R r r) (new : List α) : Evolves key R rows (rows ++ new) :=
  fun _ r hr => ⟨r, find_append hr new, hrefl r⟩

theorem upsert (hrefl : ∀ r, R r r) {k : κ} {f : α → α} {new : α}
    (hf : ∀ r, key r = k → key (f r) = k) (hR : ∀ r, find key k rows = some r → R r (f r)) :
    Evolves key R rows (table.upsert key k f new rows) := by
  unfold table.upsert
  split
  · exact update hrefl hf hR
  · exact append hrefl _

end Evolves

end table

namespace table

variable {α κ : Type*} [DecidableEq κ] (key : α → κ)

/-- `INSERT OR IGNORE`: a row whose key is in use is left out. -/
def insertOrIgnore (rows : List α) (r : α) : List α :=
  if key r ∈ rows.map key then rows else rows ++ [r]

variable {key}

theorem nodup_insertOrIgnore {rows : List α} (hnodup : (rows.map key).Nodup) (r : α) :
    ((insertOrIgnore key rows r).map key).Nodup := by
  unfold insertOrIgnore
  split
  · exact hnodup
  · rename_i hr
    exact nodup_append hnodup hr

/-- A row that is already there stays, and only a free key takes the new one. -/
theorem find_insertOrIgnore (k : κ) (rows : List α) (r : α) :
    find key k (insertOrIgnore key rows r) = (find key k rows).or (find key k [r]) := by
  unfold insertOrIgnore
  split
  · rename_i hr
    by_cases hk : key r = k
    · obtain ⟨x, hx⟩ := Option.isSome_iff_exists.mp (isSome_find.mpr (hk ▸ hr))
      rw [hx, Option.some_or]
    · have hnone : find key k [r] = none := by simp [find, hk]
      rw [hnone, Option.or_none]
  · simp only [find, List.find?_append]

theorem nodup_foldl_insertOrIgnore (rs : List α) {rows : List α} (hnodup : (rows.map key).Nodup) :
    ((rs.foldl (insertOrIgnore key) rows).map key).Nodup := by
  induction rs generalizing rows with
  | nil => exact hnodup
  | cons r rs ih => exact ih (nodup_insertOrIgnore hnodup r)

/-- Of several rows with one key the first is stored. -/
theorem find_foldl_insertOrIgnore (k : κ) (rs rows : List α) :
    find key k (rs.foldl (insertOrIgnore key) rows) = (find key k rows).or (find key k rs) := by
  induction rs generalizing rows with
  | nil => simp [find]
  | cons r rs ih =>
    rw [List.foldl_cons, ih, find_insertOrIgnore, Option.or_assoc]
    congr 1
    by_cases hk : key r = k <;> simp [find, hk]

theorem mem_foldl_insertOrIgnore {rows : List α} {r : α} (hr : r ∈ rows) (rs : List α) :
    r ∈ rs.foldl (insertOrIgnore key) rows := by
  induction rs generalizing rows with
  | nil => exact hr
  | cons x rs ih =>
    refine ih ?_
    unfold insertOrIgnore
    split
    · exact hr
    · exact List.mem_append_left _ hr

theorem mem_iff_find {rows : List α} (hnodup : (rows.map key).Nodup) {r : α} :
    r ∈ rows ↔ find key (key r) rows = some r :=
  ⟨find_eq_some hnodup, fun h => (find_spec h).1⟩

end table
