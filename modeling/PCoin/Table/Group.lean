import PCoin.Table.Basic
import Mathlib.Data.List.Induction
import Mathlib.Data.List.Sort

namespace table

variable {α β κ : Type*} [DecidableEq κ]

/-- `GROUP BY`: one row for each key, in the order in which the keys first occur. -/
def group (k : β → κ) (row : κ → List β → α) (xs : List β) : List α :=
  (xs.map k).eraseDups.map fun a => row a (xs.filter (k · = a))

theorem eraseDups_append_singleton (as : List κ) (a : κ) :
    (as ++ [a]).eraseDups = if a ∈ as then as.eraseDups else as.eraseDups ++ [a] := by
  rw [List.eraseDups_append]
  split
  · rename_i ha
    have hnone : [a].removeAll as = [] := by simp [List.removeAll, ha]
    rw [hnone, List.eraseDups_nil, List.append_nil]
  · rename_i ha
    have hone : [a].removeAll as = [a] := by simp [List.removeAll, ha]
    rw [hone]
    rfl

theorem nodup_eraseDups (as : List κ) : as.eraseDups.Nodup := by
  induction as using List.reverseRecOn with
  | nil => exact List.nodup_nil
  | append_singleton as a ih =>
    rw [eraseDups_append_singleton]
    split
    · exact ih
    · rename_i ha
      rw [List.nodup_append]
      refine ⟨ih, List.nodup_singleton a, fun b hb c hc heq => ?_⟩
      obtain rfl := List.mem_singleton.mp hc
      rw [heq] at hb
      exact ha (List.mem_eraseDups.mp hb)

section

variable {key : α → κ} {k : β → κ} {row : κ → List β → α}

theorem keys_group (hkey : ∀ a xs, key (row a xs) = a) (xs : List β) :
    (group k row xs).map key = (xs.map k).eraseDups := by
  rw [group, List.map_map]
  conv_rhs => rw [← List.map_id (xs.map k).eraseDups]
  exact List.map_congr_left fun a _ => hkey a _

theorem mem_group {xs : List β} {r : α} :
    r ∈ group k row xs ↔ ∃ a ∈ xs.map k, row a (xs.filter (k · = a)) = r := by
  simp only [group, List.mem_map (l := (xs.map k).eraseDups), List.mem_eraseDups]

theorem find_group (hkey : ∀ a xs, key (row a xs) = a) (xs : List β) (a : κ) :
    find key a (group k row xs) =
      if a ∈ xs.map k then some (row a (xs.filter (k · = a))) else none := by
  have hnodup : ((group k row xs).map key).Nodup := by
    rw [keys_group hkey]
    exact nodup_eraseDups _
  split
  · rename_i ha
    have hfind := find_eq_some hnodup (mem_group.mpr ⟨a, ha, rfl⟩)
    rwa [hkey] at hfind
  · rename_i ha
    rw [find, List.find?_eq_none]
    intro r hr
    obtain ⟨b, hb, rfl⟩ := mem_group.mp hr
    rw [decide_eq_true_eq, hkey]
    exact fun heq => ha (heq ▸ hb)

theorem filter_group (hkey : ∀ a xs, key (row a xs) = a) (xs : List β) (a : κ) :
    (group k row xs).filter (key · = a) =
      if a ∈ xs.map k then [row a (xs.filter (k · = a))] else [] := by
  have hnodup : ((group k row xs).map key).Nodup := by
    rw [keys_group hkey]
    exact nodup_eraseDups _
  split
  · rename_i ha
    have hfilter := filter_key_of_mem hnodup (mem_group.mpr ⟨a, ha, rfl⟩)
    rwa [hkey] at hfilter
  · rename_i ha
    refine filter_eq_nil ?_
    rwa [keys_group hkey, List.mem_eraseDups]

/-- A loop that updates the row of a key, or inserts it, groups by the key. -/
theorem foldl_upsert {new : β → α} {f : β → α → α} (hkey : ∀ a xs, key (row a xs) = a)
    (hnew : ∀ x, row (k x) [x] = new x)
    (hf : ∀ xs x, xs ≠ [] → row (k x) (xs ++ [x]) = f x (row (k x) xs)) (xs : List β) :
    xs.foldl (fun rows x => upsert key (k x) (f x) (new x) rows) [] = group k row xs := by
  induction xs using List.reverseRecOn with
  | nil => rfl
  | append_singleton xs x ih =>
    rw [List.foldl_append, List.foldl_cons, List.foldl_nil, ih]
    simp only [upsert, keys_group hkey, List.mem_eraseDups]
    -- the rows of the other keys
    have hother : ∀ a, a ≠ k x → (xs ++ [x]).filter (k · = a) = xs.filter (k · = a) := by
      intro a ha
      simp [Ne.symm ha]
    by_cases hx : k x ∈ xs.map k
    · have hkeys : ((xs ++ [x]).map k).eraseDups = (xs.map k).eraseDups := by
        rw [List.map_append, List.map_singleton, eraseDups_append_singleton, if_pos hx]
      rw [if_pos hx, group, group, hkeys, update, List.map_map]
      refine List.map_congr_left fun a _ => ?_
      simp only [Function.comp_apply, hkey]
      by_cases ha : a = k x
      · have hne : xs.filter (k · = k x) ≠ [] := by
          obtain ⟨y, hy, hk⟩ := List.mem_map.mp hx
          exact List.ne_nil_of_mem (List.mem_filter.mpr ⟨hy, by simpa using hk⟩)
        have happend : (xs ++ [x]).filter (k · = k x) = xs.filter (k · = k x) ++ [x] := by simp
        rw [if_pos ha, ha, happend, hf _ x hne]
      · rw [if_neg ha, hother a ha]
    · have hkeys : ((xs ++ [x]).map k).eraseDups = (xs.map k).eraseDups ++ [k x] := by
        rw [List.map_append, List.map_singleton, eraseDups_append_singleton, if_neg hx]
      rw [if_neg hx, group, group, hkeys, List.map_append]
      congr 1
      · refine List.map_congr_left fun a ha => ?_
        rw [hother a fun heq => hx (heq ▸ List.mem_eraseDups.mp ha)]
      · rw [List.map_singleton, List.filter_append, filter_eq_nil hx, ← hnew x]
        simp

end

/-- `ORDER BY ... DESC` of rows that were inserted in the order of the column. -/
theorem insertionSort_desc {c : α → Nat} {rows : List α} (h : rows.Pairwise (c · < c ·)) :
    (rows.insertionSort fun a b => c b ≤ c a) = rows.reverse := by
  have htotal : Std.Total fun a b : α => c b ≤ c a := ⟨fun a b => Nat.le_total _ _⟩
  have htrans : IsTrans α fun a b : α => c b ≤ c a := ⟨fun a b d hab hbd => Nat.le_trans hbd hab⟩
  refine List.Perm.eq_of_pairwise (fun a b ha hb hab hba => ?_)
    (List.pairwise_insertionSort _ rows) ?_
    ((List.perm_insertionSort _ rows).trans (List.reverse_perm rows).symm)
  · rw [List.mem_insertionSort] at ha
    rw [List.mem_reverse] at hb
    have hnodup : (rows.map c).Nodup := List.pairwise_map.mpr (h.imp Nat.ne_of_lt)
    exact List.inj_on_of_nodup_map hnodup ha hb (Nat.le_antisymm hba hab)
  · rw [List.pairwise_reverse]
    exact h.imp Nat.le_of_lt

end table
