import PCoin.WpcnPay.System
import PCoin.Table.Evolves

/-! What crediting does to the tables of a rail. -/

namespace pcoin.wpcnpay

theorem parseScaled_nonneg {value : List Char} {dp : Nat} {n : Int}
    (hsign : (js.trim value).head? ≠ some '-') (h : parseScaled value dp = some n) : 0 ≤ n := by
  unfold parseScaled at h
  simp only [hsign, if_false, Option.map_eq_some_iff] at h
  obtain ⟨frac, -, rfl⟩ := h
  exact Int.add_nonneg (Int.mul_nonneg (Int.natCast_nonneg _) (Int.pow_nonneg (by decide)))
    (Int.natCast_nonneg _)

/-- What a row credits. -/
def Row.paid (project chatId txhash : String) (row : Row) : Paid :=
  ⟨project, chatId, txhash, row.logIndex⟩

/-- What the loop of `#credit` makes of the claims, and what it takes of the rows. -/
structure Taken (project txhash chatId : String) (claims claims' : List ClaimRow)
    (rows taken : List Row) : Prop where
  old : ∀ r ∈ claims, r ∈ claims'
  new : claims'.map ClaimRow.paid =
    claims.map ClaimRow.paid ++ taken.map (Row.paid project chatId txhash)
  keys : (claims.map ClaimRow.key).Nodup → (claims'.map ClaimRow.key).Nodup
  all : ∀ row ∈ rows, (project, txhash, row.logIndex) ∈ claims'.map ClaimRow.key
  sub : ∀ row ∈ taken, row ∈ rows

variable {project txhash chatId : String}

theorem takeRows_spec {claims claims' : List ClaimRow} {rows taken : List Row} {nano : Int}
    (h : takeRows project txhash chatId claims rows = some (claims', taken, nano)) :
    Taken project txhash chatId claims claims' rows taken := by
  induction rows generalizing claims claims' taken nano with
  | nil =>
    cases h
    exact ⟨fun _ hr => hr, by simp, id, fun row hrow => (by cases hrow), fun row hrow => (by cases hrow)⟩
  | cons row rows ih =>
    rw [takeRows] at h
    split at h
    · rename_i hmem
      have ht := ih h
      refine ⟨ht.old, ht.new, ht.keys, fun x hx => ?_, fun x hx => List.mem_cons_of_mem _ (ht.sub x hx)⟩
      obtain rfl | hx := List.mem_cons.mp hx
      · obtain ⟨r, hr, hkey⟩ := List.mem_map.mp hmem
        exact List.mem_map.mpr ⟨r, ht.old r hr, hkey⟩
      · exact ht.all x hx
    · rename_i hmem
      obtain ⟨ours, -, h⟩ := Option.bind_eq_some_iff.mp h
      obtain ⟨⟨claims₁, taken₁, nano₁⟩, hrest, h⟩ := Option.bind_eq_some_iff.mp h
      cases h
      have ht := ih hrest
      refine ⟨fun r hr => ht.old r (List.mem_append_left _ hr), ?_, fun hnodup => ?_, fun x hx => ?_,
        fun x hx => ?_⟩
      · rw [ht.new, List.map_append, List.append_assoc]
        rfl
      · exact ht.keys (table.nodup_append hnodup hmem)
      · obtain rfl | hx := List.mem_cons.mp hx
        · exact List.mem_map.mpr ⟨_, ht.old _ (List.mem_append_right _ (List.mem_singleton.mpr rfl)), rfl⟩
        · exact ht.all x hx
      · obtain rfl | hx := List.mem_cons.mp hx
        · exact List.mem_cons_self
        · exact List.mem_cons_of_mem _ (ht.sub x hx)

/-- Figures that are not negative are credited. -/
theorem takeRows_isSome {rows : List Row} (claims : List ClaimRow)
    (hrows : ∀ row ∈ rows, 0 ≤ row.usdNano ∧ 0 ≤ row.rateE12) :
    ∃ claims' taken nano, takeRows project txhash chatId claims rows = some (claims', taken, nano) ∧
      0 ≤ nano := by
  induction rows generalizing claims with
  | nil => exact ⟨claims, [], 0, rfl, Int.le_refl 0⟩
  | cons row rows ih =>
    have hrest := fun claims => ih claims fun x hx => hrows x (List.mem_cons_of_mem _ hx)
    rw [takeRows]
    split
    · exact hrest claims
    · obtain ⟨husd, hrate⟩ := hrows row List.mem_cons_self
      have hnano : ∃ ours, row.nano = some ours ∧ 0 ≤ ours := by
        unfold Row.nano
        split
        · rename_i hsat
          refine ⟨_, by rw [satsToNanoUsd, if_neg (by omega)], ?_⟩
          exact Int.tdiv_nonneg (Int.mul_nonneg (by omega) hrate) (by decide)
        · exact ⟨_, rfl, husd⟩
      obtain ⟨ours, hours, hpos⟩ := hnano
      obtain ⟨claims', taken, nano, htake, hle⟩ := hrest (claims ++ [claimRow project txhash chatId row])
      refine ⟨claims', row :: taken, ours + nano, ?_, by omega⟩
      rw [hours]
      simp only [Option.bind_eq_bind, Option.bind_some, htake, Option.pure_def]

theorem map_paid_key (claims : List ClaimRow) :
    (claims.map ClaimRow.paid).map Paid.key = claims.map ClaimRow.key := by
  rw [List.map_map]
  rfl

/-- Every row that is taken gets its ledger row. -/
theorem ledgerRows_spec {ledger : List LedgerRow} {micro : Int} {rows : List Row}
    (hnodup : ((ledger.map LedgerRow.paid ++ rows.map (Row.paid project chatId txhash)).map
      Paid.key).Nodup) :
    (ledgerRows project txhash chatId ledger micro rows).map LedgerRow.paid =
      ledger.map LedgerRow.paid ++ rows.map (Row.paid project chatId txhash) := by
  induction rows generalizing ledger micro with
  | nil => simp [ledgerRows]
  | cons row rows ih =>
    let new : LedgerRow :=
      { project := project, chat_id := chatId, delta_micro_usd := micro, txhash := txhash,
        log_index := row.logIndex }
    have hfresh : new.key ∉ ledger.map LedgerRow.key := by
      intro hmem
      rw [List.map_append, List.nodup_append] at hnodup
      refine hnodup.2.2 new.key ?_ _ (List.mem_map_of_mem List.mem_cons_self) rfl
      rw [List.map_map]
      exact hmem
    have hmap : (ledger ++ [new]).map LedgerRow.paid =
        ledger.map LedgerRow.paid ++ [row.paid project chatId txhash] := by
      rw [List.map_append]
      rfl
    have hrest := @ih (ledger ++ [new]) 0 (by
      rw [hmap, List.append_assoc]
      exact hnodup)
    rw [ledgerRows, if_neg hfresh, hrest, hmap, List.append_assoc]
    rfl

/-- What a credit makes of the tables. -/
structure Credited (r r' : Rails) (project chatId txhash : String) (rows : List Row) : Prop where
  old : ∀ x ∈ r.claims, x ∈ r'.claims
  new : ∀ x ∈ r'.claims, x ∈ r.claims ∨ ∃ row ∈ rows, x.paid = row.paid project chatId txhash
  keys : (r'.claims.map ClaimRow.key).Nodup
  ledger : r'.ledger.map LedgerRow.paid = r'.claims.map ClaimRow.paid
  all : ∀ row ∈ rows, (project, txhash, row.logIndex) ∈ r'.claims.map ClaimRow.key
  users : r'.users.map User.key = r.users.map User.key
  remainder : ∀ u ∈ r'.users, 0 ≤ u.wpcn_remainder_nano_usd

/-- What a rail keeps of its tables. -/
structure Kept (r : Rails) : Prop where
  keys : (r.claims.map ClaimRow.key).Nodup
  ledger : r.ledger.map LedgerRow.paid = r.claims.map ClaimRow.paid
  remainder : ∀ u ∈ r.users, 0 ≤ u.wpcn_remainder_nano_usd

theorem credit_spec {r r' : Rails} {rows : List Row} (hr : Kept r)
    (h : credit r project chatId txhash rows = some r') :
    Credited r r' project chatId txhash rows := by
  obtain ⟨⟨claims, taken, nano⟩, htake, h⟩ := Option.bind_eq_some_iff.mp h
  have ht := takeRows_spec htake
  have hkeys := ht.keys hr.keys
  have hnew : ∀ x ∈ claims, x ∈ r.claims ∨
      ∃ row ∈ rows, x.paid = row.paid project chatId txhash := by
    intro x hx
    have hpaid : x.paid ∈ claims.map ClaimRow.paid := List.mem_map_of_mem hx
    rw [ht.new] at hpaid
    obtain hpaid | hpaid := List.mem_append.mp hpaid
    · obtain ⟨y, hy, heq⟩ := List.mem_map.mp hpaid
      have hkey : y.key = x.key := congrArg Paid.key heq
      exact .inl (List.inj_on_of_nodup_map hkeys (ht.old y hy) hx hkey ▸ hy)
    · obtain ⟨row, hrow, heq⟩ := List.mem_map.mp hpaid
      exact .inr ⟨row, ht.sub row hrow, heq.symm⟩
  simp only at h
  split at h
  · rename_i hnone
    cases h
    have hsame : claims.map ClaimRow.paid = r.claims.map ClaimRow.paid := by
      rw [ht.new, hnone, List.map_nil, List.append_nil]
    refine ⟨fun _ hx => hx, fun x hx => .inl hx, hr.keys, hr.ledger, fun row hrow => ?_, rfl,
      hr.remainder⟩
    have hall := ht.all row hrow
    rwa [← map_paid_key, hsame, map_paid_key] at hall
  · obtain ⟨u, hu, h⟩ := Option.bind_eq_some_iff.mp h
    obtain ⟨_, -, h⟩ := Option.bind_eq_some_iff.mp h
    cases h
    refine ⟨ht.old, hnew, hkeys, ?_, ht.all, table.map_update fun _ _ _ => rfl, fun v hv => ?_⟩
    · simp only
      rw [ledgerRows_spec, hr.ledger, ht.new]
      rw [hr.ledger, ← ht.new, map_paid_key]
      exact hkeys
    · obtain ⟨w, hw, rfl⟩ := List.mem_map.mp hv
      split
      · exact Int.emod_nonneg _ (by decide)
      · exact hr.remainder w hw

/-- A credit of figures that are not negative does not throw. -/
theorem credit_isSome {r : Rails} {rows : List Row} (hr : Kept r)
    (huser : (r.user project chatId).isSome)
    (hrows : ∀ row ∈ rows, 0 ≤ row.usdNano ∧ 0 ≤ row.rateE12) :
    (credit r project chatId txhash rows).isSome := by
  obtain ⟨claims, taken, nano, htake, hnano⟩ : ∃ claims taken nano,
      takeRows project txhash chatId r.claims rows = some (claims, taken, nano) ∧ 0 ≤ nano :=
    takeRows_isSome r.claims hrows
  obtain ⟨u, hu⟩ := Option.isSome_iff_exists.mp huser
  have hpos : 0 ≤ nano + u.wpcn_remainder_nano_usd :=
    Int.add_nonneg hnano (hr.remainder u (table.find_spec hu).1)
  rw [credit, htake]
  simp only [Option.bind_eq_bind, Option.bind_some]
  split
  · rfl
  · rw [hu]
    simp [guard, hpos]

end pcoin.wpcnpay

/-! What the claim files tell. -/

namespace pcoin.wpcnpay

section Files

variable {files : List File} {project userRef txhash : String}

/-- A log is recorded for a user. -/
def Own (files : List File) (project userRef txhash : String) (logIndex : Nat) : Prop :=
  ∃ c, readClaim files txhash logIndex = some c ∧ c.mine project userRef = true

/-- What a transfer of the answer says of the files; `id` is the request that answers. -/
def Tells (files : List File) (id : Nat) (project userRef txhash : String) : Result → Prop
  | .credited logIndex figures => ∃ f c, file files txhash logIndex = some f ∧ f.request = id ∧
      f.record = some c ∧ c.mine project userRef = true ∧ c.figures = figures
  | .already_claimed logIndex yours => ∃ f, file files txhash logIndex = some f ∧
      yours = f.record.any (·.mine project userRef)

theorem file_append {logIndex : Nat} {f : File} (h : file files txhash logIndex = some f)
    (new : List File) : file (files ++ new) txhash logIndex = some f :=
  table.find_append h new

/-- A file that has just been created. -/
theorem file_new {f : File} {logIndex : Nat} (hnone : file files txhash logIndex = none)
    (hf : f.key = (txhash, logIndex)) : file (files ++ [f]) txhash logIndex = some f := by
  rw [file, table.find] at hnone ⊢
  rw [List.find?_append, hnone, Option.none_or, List.find?_singleton, if_pos (decide_eq_true hf)]

theorem readClaim_append {logIndex : Nat} {c : Claim} (h : readClaim files txhash logIndex = some c)
    (new : List File) : readClaim (files ++ new) txhash logIndex = some c := by
  obtain ⟨f, hf, hc⟩ := Option.bind_eq_some_iff.mp h
  exact Option.bind_eq_some_iff.mpr ⟨f, file_append hf new, hc⟩

/-- A log is recorded for one user. -/
theorem Own.unique {project' userRef' : String} {logIndex : Nat}
    (h : Own files project userRef txhash logIndex)
    (h' : Own files project' userRef' txhash logIndex) : project = project' ∧ userRef = userRef' := by
  obtain ⟨c, hc, hmine⟩ := h
  obtain ⟨c', hc', hmine'⟩ := h'
  obtain rfl : c = c' := Option.some.inj (hc.symm.trans hc')
  simp only [Claim.mine, Bool.and_eq_true, decide_eq_true_eq] at hmine hmine'
  exact ⟨hmine.1.symm.trans hmine'.1, hmine.2.symm.trans hmine'.2⟩

theorem Own.append {logIndex : Nat} (h : Own files project userRef txhash logIndex)
    (new : List File) : Own (files ++ new) project userRef txhash logIndex := by
  obtain ⟨c, hc, hmine⟩ := h
  exact ⟨c, readClaim_append hc new, hmine⟩

theorem Tells.append {id : Nat} {x : Result} (h : Tells files id project userRef txhash x)
    (new : List File) : Tells (files ++ new) id project userRef txhash x := by
  cases x with
  | credited logIndex figures =>
    obtain ⟨f, c, hf, hrest⟩ := h
    exact ⟨f, c, file_append hf new, hrest⟩
  | already_claimed logIndex yours =>
    obtain ⟨f, hf, hrest⟩ := h
    exact ⟨f, file_append hf new, hrest⟩

/-- What is credited is recorded for the user. -/
theorem Tells.own {id logIndex : Nat} {figures : Figures}
    (h : Tells files id project userRef txhash (.credited logIndex figures)) :
    Own files project userRef txhash logIndex := by
  obtain ⟨f, c, hf, -, hc, hmine, -⟩ := h
  exact ⟨c, Option.bind_eq_some_iff.mpr ⟨f, hf, hc⟩, hmine⟩

/-- The claim that a request finds in the way of its own. -/
theorem tells_already {logIndex : Nat} (id : Nat) (h : (file files txhash logIndex).isSome) :
    Tells files id project userRef txhash
      (already (readClaim files txhash logIndex) logIndex project userRef) := by
  obtain ⟨f, hf⟩ := Option.isSome_iff_exists.mp h
  refine ⟨f, hf, ?_⟩
  rw [readClaim, hf, Option.bind_some]

theorem newer_append (c : Claim) (new : List File) :
    (newer files c).length ≤ (newer (files ++ new) c).length := by
  rw [newer, newer, List.filterMap_append, List.filter_append, List.length_append]
  exact Nat.le_add_right _ _

theorem mem_recorded (hnodup : (files.map File.key).Nodup) {logIndex : Nat}
    (h : logIndex ∈ recorded files project userRef txhash) :
    Own files project userRef txhash logIndex := by
  obtain ⟨f, hf, rfl⟩ := List.mem_map.mp h
  obtain ⟨hin, hown⟩ := List.mem_filter.mp hf
  simp only [Bool.and_eq_true, decide_eq_true_eq] at hown
  obtain ⟨rfl, hmine⟩ := hown
  cases hc : f.record with
  | none =>
    rw [hc] at hmine
    cases hmine
  | some c =>
    rw [hc] at hmine
    exact ⟨c, Option.bind_eq_some_iff.mpr ⟨f, table.find_eq_some hnodup hin, hc⟩, hmine⟩

end Files

/-- A record with fewer than 50 newer ones is in the list of claims. -/
theorem mem_claimsFor {files : List File} {order : List Claim} {project userRef : String} {c : Claim}
    (horder : order.Perm (files.filterMap File.record)) (hc : c ∈ files.filterMap File.record)
    (hmine : c.mine project userRef = true) (hnewer : (newer files c).length < 50) :
    c ∈ claimsFor order project userRef := by
  obtain ⟨rfl, rfl⟩ : c.project = project ∧ c.user_ref = userRef := by
    simpa [Claim.mine] using hmine
  let own := order.filter (·.mine c.project c.user_ref)
  have hperm : (newestFirst own).Perm own := List.perm_insertionSort _ own
  have hsorted : (newestFirst own).Pairwise fun a b => b.time ≤ a.time := by
    have htotal : Std.Total fun a b : Claim => b.time ≤ a.time := ⟨fun a b => Int.le_total _ _⟩
    have htrans : IsTrans Claim fun a b => b.time ≤ a.time :=
      ⟨fun a b d hab hbd => Int.le_trans hbd hab⟩
    exact List.pairwise_insertionSort _ own
  have hmem : c ∈ newestFirst own :=
    hperm.mem_iff.mpr (List.mem_filter.mpr ⟨horder.mem_iff.mpr hc, hmine⟩)
  by_contra hout
  have hdrop : c ∈ (newestFirst own).drop 50 := by
    rw [← List.take_append_drop 50 (newestFirst own)] at hmem
    exact (List.mem_append.mp hmem).resolve_left hout
  have hlength : ((newestFirst own).take 50).length = 50 := by
    have hpos := List.length_pos_of_mem hdrop
    rw [List.length_drop] at hpos
    rw [List.length_take]
    omega
  -- the 50 that are listed are newer
  have hlisted : ∀ d ∈ (newestFirst own).take 50,
      (d.mine c.project c.user_ref && c.time ≤ d.time && d ≠ c) = true := by
    intro d hd
    have hown := (List.mem_filter.mp (hperm.mem_iff.mp (List.mem_of_mem_take hd))).2
    rw [← List.take_append_drop 50 (newestFirst own), List.pairwise_append] at hsorted
    have htime := hsorted.2.2 d hd c hdrop
    have hne : d ≠ c := by
      rintro rfl
      exact hout hd
    simp [hown, htime, hne]
  have hcount : 50 ≤ (newer files c).length := by
    rw [← hlength, ← List.filter_eq_self.mpr hlisted]
    refine Nat.le_trans ((List.take_sublist 50 _).filter _).length_le ?_
    rw [(hperm.filter _).length_eq, newer, ← (horder.filter _).length_eq]
    exact (List.filter_sublist.filter _).length_le
  omega

end pcoin.wpcnpay
