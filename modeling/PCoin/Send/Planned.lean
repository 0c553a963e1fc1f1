import PCoin.Select.Basic
import PCoin.Send.TxBuilder

open swift
open pcoin.store pcoin.block pcoin.address

namespace pcoin.send

/-- What the coins are worth together. -/
def total (coins : List SpendableUtxo) : Int := (coins.map (·.valueSat)).sum

theorem total_append (a b : List SpendableUtxo) : total (a ++ b) = total a + total b := by
  simp [total]

theorem scriptPubKey_ne_nil (a : Address) : a.scriptPubKey ≠ [] := by
  rw [Address.scriptPubKey]
  split <;> simp

theorem accumulate_spec (target : Int) (fee : Nat → Int) (coins selected : List SpendableUtxo) :
    let r := accumulate target fee coins selected (total selected)
    (∃ k, r.1 = selected ++ coins.take k) ∧ r.2 = total r.1 ∧
      (r.2 ≥ target + fee r.1.length ∨ ∀ k, 0 < k → k ≤ coins.length →
        total (selected ++ coins.take k) < target + fee (selected.length + k)) := by
  induction coins generalizing selected with
  | nil => exact ⟨⟨0, by simp [accumulate]⟩, rfl, .inr fun k hk hle => absurd hle (by simp; omega)⟩
  | cons c coins ih =>
    have hacc : total selected + c.valueSat = total (selected ++ [c]) := by simp [total]
    rw [accumulate]
    dsimp only
    rw [hacc]
    split
    case isTrue hmeets => exact ⟨⟨1, by simp⟩, rfl, .inl hmeets⟩
    case isFalse hshort =>
      obtain ⟨⟨k, hk⟩, htotal, hor⟩ := ih (selected ++ [c])
      refine ⟨⟨k + 1, by simpa using hk⟩, htotal, hor.imp_right fun hall j hj hle => ?_⟩
      cases j with
      | zero => omega
      | succ j =>
        rcases Nat.eq_zero_or_pos j with rfl | hpos
        · simpa using hshort
        · have := hall j hpos (by simpa using hle)
          rw [List.length_append, List.length_singleton] at this
          rw [List.take_succ_cons]
          simpa [Nat.add_assoc, Nat.add_comm 1] using this

theorem choose_ok {target : Int} {fee : Nat → Int} {coins selected : List SpendableUtxo}
    (h : choose target fee coins = .ok selected) :
    selected.Subperm coins ∧ total selected ≥ target + fee selected.length := by
  rw [choose] at h
  split at h
  case h_1 s hs =>
    cases h
    have hmem : s ∈ coins := List.mem_reverse.mp (List.mem_of_find?_eq_some hs)
    exact ⟨List.singleton_subperm_iff.mpr hmem, by simpa [total] using List.find?_some hs⟩
  case h_2 =>
    obtain ⟨⟨k, hk⟩, htotal, -⟩ := accumulate_spec target fee coins []
    dsimp only at h
    split at h
    case isTrue hmeets =>
      cases h
      refine ⟨?_, ?_⟩
      · rw [show (0 : Int) = total [] from rfl, hk]
        exact (List.take_sublist k coins).subperm
      · rw [show (0 : Int) = total [] from rfl] at hmeets ⊢
        rwa [htotal] at hmeets
    case isFalse => cases h

theorem choose_error {target needed : Int} {fee : Nat → Int} {coins : List SpendableUtxo}
    (h : choose target fee coins = .error needed) {k : Nat} (hk : 0 < k) (hle : k ≤ coins.length) :
    total (coins.take k) < target + fee k := by
  rw [choose] at h
  split at h
  case h_1 => cases h
  case h_2 =>
    obtain ⟨-, -, hor⟩ := accumulate_spec target fee coins []
    dsimp only at h
    split at h
    case isTrue => cases h
    case isFalse hshort => simpa using hor.resolve_left hshort k hk hle

variable {ε : Type} {crypto : Crypto} {signer : UInt32 → UInt32 → Except ε ExtendedKey}

/-- What the claim about sizes rests on: libsecp256k1 makes low-S signatures, whose DER form never
    takes more than 71 bytes. -/
def ShortSignatures (crypto : Crypto) : Prop :=
  ∀ hash key der, crypto.signDER hash key = some der → der.length ≤ 71

/-- An input as `plan` makes it, signed. -/
def Signed (i : Input) (u : SpendableUtxo) : Prop :=
  i.outpoint = u.outpoint ∧ i.scriptSig = [] ∧ i.witness ≠ [] ∧
    (Transaction.serializedWitness i).length ≤ maxWitnessBytesPerInput

/-- Ends with a result of which `P` holds, or with an error, which is about the amount only when
    `short` holds. -/
def Ends {α : Type} (P : α → Prop) (short : Prop) : Except (Thrown ε) α → Prop
  | .ok a => P a
  | .error e => ∀ needed held, e = .plan (.insufficientFunds needed held) → short

theorem Ends.bind {α β : Type} {P : α → Prop} {Q : β → Prop} {short : Prop}
    {x : Except (Thrown ε) α} {f : α → Except (Thrown ε) β} (hx : Ends P short x)
    (hf : ∀ a, P a → Ends Q short (f a)) : Ends Q short (x >>= f) := by
  cases x with
  | ok a => exact hf a hx
  | error e => exact hx

theorem Ends.imp {α : Type} {P Q : α → Prop} {short : Prop} {x : Except (Thrown ε) α}
    (h : Ends P False x) (hPQ : ∀ a, P a → Q a) : Ends Q short x := by
  cases x with
  | ok a => exact hPQ a h
  | error e => exact fun needed held he => (h needed held he).elim

theorem signInput_spec (hshort : ShortSignatures crypto) (tx : Transaction) (u : SpendableUtxo) :
    Ends (fun witness => Signed ⟨u.outpoint, defaultSequence, [], witness⟩ u) False
      (signInput crypto signer tx ⟨u.outpoint, defaultSequence, [], []⟩ u) := by
  rw [signInput]
  split
  case h_1 => exact fun _ _ h => by cases h
  case h_2 =>
    split
    case h_1 => exact fun _ _ h => by cases h
    case h_2 key _ =>
      dsimp only
      split
      case isTrue => exact fun _ _ h => by cases h
      case isFalse =>
        split
        case h_1 => exact fun _ _ h => by cases h
        case h_2 hash _ =>
          split
          case h_1 => exact fun _ _ h => by cases h
          case h_2 der hder =>
            split
            case isTrue =>
              have hlen := hshort hash key.key der hder
              have hsize : varIntSize (der.length + 1) = 1 := if_pos (by omega)
              have hpub := key.publicKey.property
              refine ⟨rfl, rfl, by simp, ?_⟩
              simp only [Transaction.serializedWitness, Transaction.serializedItem, List.map_cons,
                List.map_nil, List.flatten_cons, List.flatten_nil, List.length_append, List.length_cons,
                List.length_nil, length_varint, hpub, hsize, maxWitnessBytesPerInput, Nat.zero_add]
              rw [show varIntSize (1 + 1) = 1 from rfl, show varIntSize 33 = 1 from rfl]
              omega
            case isFalse => exact fun _ _ h => by cases h

theorem signInputs_spec (hshort : ShortSignatures crypto) (tx : Transaction)
    (utxos : List SpendableUtxo) :
    Ends (fun inputs => List.Forall₂ Signed inputs utxos) False (signInputs crypto signer tx
      (utxos.map fun u => ⟨u.outpoint, defaultSequence, [], []⟩) utxos) := by
  induction utxos with
  | nil => exact .nil
  | cons u utxos ih =>
    rw [List.map_cons, signInputs]
    refine (signInput_spec hshort tx u).bind fun witness hwitness => ?_
    exact ih.bind fun rest hrest => .cons hwitness hrest

theorem sign_spec (hshort : ShortSignatures crypto) (utxos : List SpendableUtxo)
    (outputs : List Output) :
    Ends (fun tx => tx.outputs = outputs ∧ List.Forall₂ Signed tx.inputs utxos) False
      (sign crypto signer
        (Transaction.make (utxos.map fun u => ⟨u.outpoint, defaultSequence, [], []⟩) outputs) utxos) :=
  (signInputs_spec hshort _ utxos).bind fun _ hinputs => ⟨rfl, hinputs⟩

theorem outpoints_of_signed {inputs : List Input} {utxos : List SpendableUtxo}
    (h : List.Forall₂ Signed inputs utxos) : inputs.map (·.outpoint) = utxos.map (·.outpoint) := by
  induction h with
  | nil => rfl
  | cons hi _ ih => rw [List.map_cons, List.map_cons, hi.1, ih]

/-- The estimate for both outputs is enough for the signed transaction with one or both. -/
theorem vsize_le {tx : Transaction} {utxos : List SpendableUtxo} (hne : utxos ≠ [])
    (hinputs : List.Forall₂ Signed tx.inputs utxos) {first second : Bytes} (hfirst : first ≠ [])
    (hsecond : second ≠ []) {a : Int} {rest : List Output}
    (houtputs : tx.outputs = ⟨a, first⟩ :: rest) (hrest : rest = [] ∨ ∃ c, rest = [⟨c, second⟩])
    {v : Nat} (hv : tx.vsize = some v) : v ≤ estimateVsize utxos.length [first, second] := by
  have hlen := hinputs.length_eq
  have hsigned : ∀ i ∈ tx.inputs, ∃ u, Signed i u := by
    intro i hi
    obtain ⟨j, hj, rfl⟩ := List.getElem_of_mem hi
    exact ⟨_, (List.forall₂_iff_get.mp hinputs).2 j hj (hlen ▸ hj)⟩
  have hwitness : tx.hasWitness = true := by
    obtain ⟨i, inputs, hi⟩ := List.exists_cons_of_ne_nil
      (List.ne_nil_of_length_pos (hlen ▸ List.length_pos_of_ne_nil hne))
    obtain ⟨u, hu⟩ := hsigned i (hi ▸ List.mem_cons_self)
    rw [Transaction.hasWitness, hi, List.any_cons]
    simp [hu.2.2.1]
  obtain ⟨w, hw, rfl⟩ := Option.map_eq_some_iff.mp hv
  have hle := Transaction.weight_le hwitness (fun i hi => (hsigned i hi).choose_spec.2.1)
    (fun i hi => (hsigned i hi).choose_spec.2.2.2) hw
  have hreal : [first, second].filter (fun s => !s.isEmpty) = [first, second] := by
    simp [hfirst, hsecond]
  rw [hlen, houtputs] at hle
  rw [estimateVsize, hreal]
  simp only [List.map_cons, List.map_nil, List.sum_cons, List.sum_nil, List.length_cons, List.length_nil]
  have hone : varIntSize (0 + 1 + 1) = 1 := rfl
  rcases hrest with rfl | ⟨c, rfl⟩
  · simp only [Transaction.outputsSize, List.map_cons, List.map_nil, List.sum_cons, List.sum_nil,
      List.length_cons, List.length_nil, show varIntSize (0 + 1) = 1 from rfl] at hle
    omega
  · simp only [Transaction.outputsSize, List.map_cons, List.map_nil, List.sum_cons, List.sum_nil,
      List.length_cons, List.length_nil, hone] at hle
    omega

/-- What the payment, the change and the fee are, once they can be paid. -/
theorem split_ok {selectedTotal available fee pay : Int} {amountSat : Option Int} {script : Bytes}
    {change : Option Int}
    (h : split selectedTotal available amountSat (some script) fee = .ok (pay, change)) :
    fee ≤ selectedTotal - pay - change.getD 0 ∧
      selectedTotal - pay - change.getD 0 ≤ fee + dustSat ∧ (∀ c ∈ change, isDust c = false) ∧
      match amountSat with
      | some a => pay = a
      | none => pay = selectedTotal - fee ∧ change = none := by
  have hdust : (0 : Int) ≤ dustSat := by decide
  cases amountSat with
  | none =>
    rw [split] at h
    split at h
    case isTrue => cases h
    case isFalse =>
      split at h
      case isTrue => cases h
      case isFalse =>
        cases h
        refine ⟨?_, ?_, by simp, rfl, rfl⟩ <;> simp only [Option.getD_none] <;> omega
  | some a =>
    rw [split] at h
    split at h
    case isTrue => cases h
    case isFalse hnonneg =>
      split at h
      case isTrue hchange =>
        cases h
        refine ⟨?_, ?_, ?_, rfl⟩
        · simp only [Option.getD_some]
          omega
        · simp only [Option.getD_some]
          omega
        · intro c hc
          cases hc
          simpa using hchange.2.1
      case isFalse hsmall =>
        cases h
        have hless : selectedTotal - pay - fee ≤ dustSat := by
          by_contra hbig
          have hnot : isDust (selectedTotal - pay - fee) = false := decide_eq_false (by omega)
          exact hsmall ⟨by omega, by simp [hnot], rfl⟩
        refine ⟨?_, ?_, by simp, rfl⟩ <;> simp only [Option.getD_none] <;> omega

theorem split_error {selectedTotal available fee needed held : Int} {amountSat : Option Int}
    {script : Option Bytes}
    (h : split selectedTotal available amountSat script fee = .error (.insufficientFunds needed held)) :
    ∃ a, amountSat = some a ∧ selectedTotal < a + fee := by
  cases amountSat with
  | none =>
    rw [split] at h
    split at h
    case isTrue => cases h
    case isFalse => split at h <;> cases h
  | some a =>
    rw [split] at h
    split at h
    case isTrue hneg => exact ⟨a, rfl, by omega⟩
    case isFalse => split at h <;> cases h

variable {destination : Address} {amountSat : Option Int} {changeAddress : Option (List Char)}
  {script : Bytes} {selected : List SpendableUtxo} {available fee : Int}

theorem attempt_spec (hshort : ShortSignatures crypto) {pay : Int} {change : Option Int}
    (hsplit : split (total selected) available amountSat (some script) fee = .ok (pay, change)) :
    Ends (fun r : PlannedSend × Nat => r.1.amountSat = pay ∧ r.1.changeSat = change ∧
        r.1.inputs = selected ∧ List.Forall₂ Signed r.1.signed.inputs selected ∧
        r.1.signed.outputs = ⟨pay, destination.scriptPubKey⟩ ::
          changeOutput change (some script) ∧
        r.1.signed.vsize = some r.2 ∧ r.1.feeSat = total selected - pay - change.getD 0) False
      (attempt crypto signer destination amountSat changeAddress (some script) selected available fee) := by
  rw [total] at hsplit
  rw [attempt, hsplit]
  refine (sign_spec hshort selected _).bind fun tx ⟨houtputs, hinputs⟩ => ?_
  split
  case h_1 => exact fun _ _ h => by cases h
  case h_2 v hv =>
    refine ⟨rfl, rfl, rfl, hinputs, houtputs, hv, ?_⟩
    cases change with
    | none => simp [total, changeOutput]
    | some c =>
      simp [total, changeOutput]
      omega

/-- A plan that spends `selected`, pays what was asked and the rate, and loses nothing. -/
structure Pays (destination : Address) (amountSat : Option Int) (feeRate : Nat) (script : Bytes)
    (selected : List SpendableUtxo) (p : PlannedSend) : Prop where
  inputs : p.inputs = selected
  spends : p.signed.inputs.map (·.outpoint) = selected.map (·.outpoint)
  outputs : p.signed.outputs =
    ⟨p.amountSat, destination.scriptPubKey⟩ :: changeOutput p.changeSat (some script)
  balance : p.amountSat + p.changeSat.getD 0 + p.feeSat = total selected
  amount : match amountSat with
    | some a => p.amountSat = a
    | none => p.amountSat = total selected - p.feeSat ∧ p.changeSat = none
  change : ∀ c ∈ p.changeSat, isDust c = false
  rate : ∃ v, p.signed.vsize = some v ∧ (feeRate * v : Nat) ≤ p.feeSat
  fee_le : p.feeSat ≤ estimateFee selected.length [destination.scriptPubKey, script] feeRate + dustSat

/-- The first round already pays the rate, as the estimate is never short of the size. -/
theorem converge_spec (hshort : ShortSignatures crypto) (hne : selected ≠ []) (hscript : script ≠ [])
    {feeRate : Nat} (hfee : fee = estimateFee selected.length [destination.scriptPubKey, script] feeRate)
    (hcover : ∀ a, amountSat = some a → a + fee ≤ total selected) (rounds : Nat)
    (best : Option PlannedSend) :
    Ends (fun r => ∃ p, r = some p ∧ Pays destination amountSat feeRate script selected p) False
      (converge crypto signer destination amountSat feeRate changeAddress (some script) selected
        available (rounds + 1) fee best) := by
  rw [converge]
  cases hsplit : split (total selected) available amountSat (some script) fee with
  | error e =>
    have hattempt : attempt crypto signer destination amountSat changeAddress (some script) selected
        available fee = .error (.plan e) := by
      rw [total] at hsplit
      simp only [attempt, hsplit]
      rfl
    rw [hattempt]
    intro needed held heq
    cases heq
    obtain ⟨a, ha, hlt⟩ := split_error hsplit
    have := hcover a ha
    omega
  | ok parts =>
    obtain ⟨pay, change⟩ := parts
    obtain ⟨hlow, hhigh, hdust, hamount⟩ := split_ok hsplit
    refine (attempt_spec hshort hsplit).bind fun r hr => ?_
    obtain ⟨p, v⟩ := r
    obtain ⟨rfl, rfl, hinputs, hsigned, houtputs, hv, hpaid⟩ := hr
    dsimp only at hlow hhigh hdust hamount hinputs hsigned houtputs hv hpaid
    have hsize : v ≤ estimateVsize selected.length [destination.scriptPubKey, script] :=
      vsize_le hne hsigned (scriptPubKey_ne_nil destination) hscript houtputs
        (by cases p.changeSat <;> simp [changeOutput]) hv
    have hrate : ((feeRate * v : Nat) : Int) ≤ p.feeSat := by
      have hmul := Nat.mul_le_mul_right feeRate hsize
      rw [hfee, estimateFee] at hlow
      rw [hpaid, Nat.mul_comm]
      exact le_trans (by exact_mod_cast hmul) hlow
    dsimp only
    rw [if_pos hrate]
    refine ⟨p, rfl, hinputs, outpoints_of_signed hsigned, houtputs, by omega, ?_, hdust, ⟨v, hv, hrate⟩, by omega⟩
    cases amountSat with
    | some a => exact hamount
    | none =>
      obtain ⟨hpay, hchange⟩ := hamount
      rw [hchange, Option.getD_none] at hpaid
      exact ⟨by omega, hchange⟩

/-- No coins that can be spent, however they are chosen, cover the amount and the estimate for as
    many inputs and both outputs. -/
def Unaffordable (allUtxos : List SpendableUtxo) (target : Int) (fee : Nat → Int) : Prop :=
  ∀ coins : List SpendableUtxo, coins.Nodup → coins ⊆ spendable allUtxos →
    total coins < target + fee coins.length

theorem sorted_coins (allUtxos : List SpendableUtxo) :
    ((spendable allUtxos).mergeSort fun a b => b.valueSat ≤ a.valueSat).Pairwise
      fun a b => b.valueSat ≤ a.valueSat := by
  have h := @List.pairwise_mergeSort SpendableUtxo (fun a b => decide (b.valueSat ≤ a.valueSat))
    (fun a b c hab hbc => by
      rw [decide_eq_true_eq] at hab hbc ⊢
      exact le_trans hbc hab)
    (fun a b => by simpa using le_total b.valueSat a.valueSat) (spendable allUtxos)
  exact h.imp fun hab => by simpa using hab

/-- The error of the choice is exact, as the largest coins of any number cover the most. -/
theorem unaffordable_of_choose {allUtxos : List SpendableUtxo} {target needed : Int} {fee : Nat → Int}
    (htarget : 0 < target) (hfee : 0 ≤ fee 0)
    (h : choose target fee ((spendable allUtxos).mergeSort fun a b => b.valueSat ≤ a.valueSat) =
      .error needed) : Unaffordable allUtxos target fee := by
  intro coins hnodup hsub
  rcases Nat.eq_zero_or_pos coins.length with hzero | hpos
  · rw [List.length_eq_zero_iff.mp hzero]
    simp only [total, List.map_nil, List.sum_nil, List.length_nil]
    omega
  · have hsubperm : coins.Subperm
        ((spendable allUtxos).mergeSort fun a b => b.valueSat ≤ a.valueSat) :=
      (List.subperm_of_subset hnodup hsub).trans (List.mergeSort_perm _ _).symm.subperm
    exact (select.sum_map_le_sum_take (·.valueSat) (sorted_coins allUtxos) hsubperm).trans_lt
      (choose_error h hpos hsubperm.length_le)

/-- The planner spends distinct coins that it may spend, pays exactly what was asked, at least the
    rate and not much more than the estimate, and keeps the rest; and it says that the funds do not
    suffice only when they do not. -/
theorem plan_sound (hshort : ShortSignatures crypto) (U : Unicode) {allUtxos : List SpendableUtxo}
    (hdistinct : (allUtxos.map (·.outpoint)).Nodup) (destination : Address) (amountSat : Option Int)
    (feeRate : Nat) {ca : List Char} {change : Address}
    (hchange : Address.parse U crypto.doubleSha256 .mainnet ca = .ok change) :
    (∀ p, plan crypto signer U allUtxos destination amountSat feeRate (some ca) = .ok p →
      (∀ u ∈ p.inputs, u ∈ spendable allUtxos) ∧ (p.inputs.map (·.outpoint)).Nodup ∧
      (amountSat = none → p.inputs.Perm (spendable allUtxos)) ∧
      Pays destination amountSat feeRate change.scriptPubKey p.inputs p) ∧
    ∀ needed held, plan crypto signer U allUtxos destination amountSat feeRate (some ca) =
        .error (.plan (.insufficientFunds needed held)) →
      ∃ target, amountSat = some target ∧ Unaffordable allUtxos target fun inputs =>
        estimateFee inputs [destination.scriptPubKey, change.scriptPubKey] feeRate := by
  have hscript := scriptPubKey_ne_nil change
  have hfee : ∀ n, (0 : Int) ≤ estimateFee n [destination.scriptPubKey, change.scriptPubKey] feeRate :=
    fun n => by
      rw [estimateFee]
      positivity
  have hperm : ((spendable allUtxos).mergeSort fun a b => b.valueSat ≤ a.valueSat).Perm
      (spendable allUtxos) := List.mergeSort_perm _ _
  have hspendable : ((spendable allUtxos).map (·.outpoint)).Nodup :=
    hdistinct.sublist (List.filter_sublist.map _)
  -- Whatever is selected, the rounds end with a plan for it or with another error.
  have hfinish : ∀ selected : List SpendableUtxo, selected.Subperm (spendable allUtxos) →
      selected ≠ [] → (∀ a, amountSat = some a →
        a + estimateFee selected.length [destination.scriptPubKey, change.scriptPubKey] feeRate ≤
          total selected) → ∀ available short,
      Ends (fun r => ∃ p, r = some p ∧ p.inputs = selected ∧ (∀ u ∈ p.inputs, u ∈ spendable allUtxos) ∧
          (p.inputs.map (·.outpoint)).Nodup ∧
          Pays destination amountSat feeRate change.scriptPubKey p.inputs p) short
        (converge crypto signer destination amountSat feeRate (some ca) (some change.scriptPubKey) selected
          available 4
          (estimateFee selected.length [destination.scriptPubKey, change.scriptPubKey] feeRate) none) := by
    intro selected hsub hne hcover available short
    refine (converge_spec hshort hne hscript rfl hcover 3 none).imp fun r hr => ?_
    obtain ⟨p, rfl, hp⟩ := hr
    refine ⟨p, rfl, ?_⟩
    obtain ⟨l, hl, hlsub⟩ := hsub
    refine ⟨hp.inputs, ?_, ?_, hp.inputs.symm ▸ hp⟩
    · rw [hp.inputs]
      exact fun u hu => hlsub.subset (hl.mem_iff.mpr hu)
    · rw [hp.inputs]
      exact ((hl.map _).nodup_iff).mp (hspendable.sublist (hlsub.map _))
  have hplan : Ends (fun p => (∀ u ∈ p.inputs, u ∈ spendable allUtxos) ∧
      (p.inputs.map (·.outpoint)).Nodup ∧ (amountSat = none → p.inputs.Perm (spendable allUtxos)) ∧
      Pays destination amountSat feeRate change.scriptPubKey p.inputs p)
      (∃ target, amountSat = some target ∧ Unaffordable allUtxos target fun inputs =>
        estimateFee inputs [destination.scriptPubKey, change.scriptPubKey] feeRate)
      (plan crypto signer U allUtxos destination amountSat feeRate (some ca)) := by
    rw [plan]
    simp only [Option.bind_some, hchange, Option.getD_some]
    split
    case isTrue => exact fun _ _ h => by cases h
    case isFalse hcoins =>
      split
      case isTrue => exact fun _ _ h => by cases h
      case isFalse hdust =>
        cases amountSat with
        | none =>
          have hne : (spendable allUtxos).mergeSort (fun a b => b.valueSat ≤ a.valueSat) ≠ [] := by
            simpa using hcoins
          refine (hfinish _ hperm.subperm hne (fun a ha => by cases ha) _ _).bind fun r hr => ?_
          obtain ⟨p, rfl, hp⟩ := hr
          exact ⟨hp.2.1, hp.2.2.1, fun _ => hp.1 ▸ hperm, hp.2.2.2⟩
        | some target =>
          have htarget : 0 < target := by
            have : ¬target < dustSat := by simpa [isDust] using hdust
            have hpos : (0 : Int) < dustSat := by decide
            omega
          dsimp only
          cases hchoose : choose target (fun inputs => estimateFee inputs
              [destination.scriptPubKey, change.scriptPubKey] feeRate)
              ((spendable allUtxos).mergeSort fun a b => b.valueSat ≤ a.valueSat) with
          | error needed =>
            exact fun _ _ _ => ⟨target, rfl, unaffordable_of_choose htarget (hfee 0) hchoose⟩
          | ok selected =>
            obtain ⟨hsub, hcover⟩ := choose_ok hchoose
            have hne : selected ≠ [] := by
              rintro rfl
              have := hfee 0
              simp only [total, List.map_nil, List.sum_nil, List.length_nil] at hcover
              omega
            refine (hfinish selected (hsub.trans hperm.subperm) hne (fun a ha => ?_) _ _).bind fun r hr => ?_
            · cases ha
              exact hcover
            · obtain ⟨p, rfl, hp⟩ := hr
              exact ⟨hp.2.1, hp.2.2.1, fun h => (by cases h), hp.2.2.2⟩
  refine ⟨fun p hp => ?_, fun needed held herr => ?_⟩
  · rw [hp] at hplan
    exact hplan
  · rw [herr] at hplan
    exact hplan needed held rfl

/-- A wallet with two coins on one key. -/
def aKey : ExtendedKey where
  key := List.replicate 31 0 ++ [1]
  publicKey := ⟨[2, 121, 190, 102, 126, 249, 220, 187, 172, 85, 160, 98, 149, 206, 135, 11, 7, 2, 155, 252,
    219, 45, 206, 40, 217, 89, 242, 129, 91, 22, 248, 23, 152], rfl⟩

def aHash160 : Bytes :=
  [117, 30, 118, 232, 25, 145, 150, 212, 84, 148, 28, 69, 209, 179, 163, 35, 241, 67, 59, 214]

def aCoin (vout : UInt32) (valueSat : Int) : SpendableUtxo where
  outpoint := ⟨List.replicate 64 '0', vout⟩
  valueSat := valueSat
  scriptPubKey := [0x00, 0x14] ++ aHash160
  chain := 0
  index := 0
  confirmations := 1
  isCoinbase := false
  spendableAccordingToIndex := true

def twoCoins : List SpendableUtxo := [aCoin 0 100000, aCoin 1 20000]

def aSighash : Hash :=
  ⟨[172, 243, 248, 25, 87, 63, 22, 189, 63, 167, 224, 87, 206, 108, 145, 54, 235, 136, 209, 79, 110,
    25, 48, 228, 22, 156, 15, 237, 4, 126, 172, 90], rfl⟩

def aSignature : Bytes :=
  [48, 69, 2, 33, 0, 133, 173, 206, 166, 46, 177, 95, 147, 35, 51, 98, 64, 222, 200, 105, 200, 121,
    183, 249, 130, 132, 118, 150, 156, 199, 145, 22, 78, 74, 201, 122, 56, 2, 32, 25, 235, 189, 11,
    33, 217, 44, 85, 5, 155, 122, 46, 48, 44, 204, 200, 160, 44, 180, 149, 172, 109, 194, 96, 42,
    113, 237, 181, 245, 104, 71, 149]

def anotherSighash : Hash :=
  ⟨[243, 22, 181, 11, 250, 65, 199, 33, 138, 228, 23, 33, 184, 245, 200, 136, 25, 85, 68, 126, 227,
    32, 21, 219, 238, 239, 10, 79, 171, 250, 203, 75], rfl⟩

def anotherSignature : Bytes :=
  [48, 68, 2, 32, 76, 22, 67, 217, 226, 86, 99, 154, 161, 215, 94, 115, 20, 161, 235, 104, 197, 252,
    238, 215, 159, 133, 213, 188, 1, 205, 113, 34, 177, 37, 32, 51, 2, 32, 70, 45, 199, 120, 9, 17,
    111, 176, 46, 102, 30, 165, 101, 236, 45, 34, 127, 57, 54, 57, 105, 39, 65, 225, 227, 76, 20,
    184, 226, 160, 181, 25]

/-- The hashes and the signatures as they really are for this wallet's send, which needs no others. -/
def aCrypto : Crypto where
  doubleSha256 b :=
    if b = List.replicate 36 0 ++ List.replicate 32 0 ++ [1, 0, 0, 0] then
      ⟨[20, 44, 209, 222, 234, 185, 57, 33, 115, 126, 105, 22, 158, 140, 35, 110, 48, 85, 4, 111,
        158, 174, 24, 123, 118, 250, 206, 21, 75, 108, 180, 243], rfl⟩
    else if b = [0xfd, 0xff, 0xff, 0xff, 0xfd, 0xff, 0xff, 0xff] then
      ⟨[149, 120, 121, 253, 206, 77, 138, 184, 133, 227, 47, 243, 7, 213, 78, 117, 136, 77, 165, 37,
        34, 204, 83, 211, 196, 253, 182, 14, 219, 105, 160, 152], rfl⟩
    else if b = littleEndian 8 110000 ++ [22, 0, 20] ++ List.replicate 20 0 ++ littleEndian 8 9791 ++
        [22, 0, 20] ++ aHash160 then
      ⟨[203, 197, 48, 197, 34, 234, 34, 213, 152, 44, 195, 50, 232, 77, 14, 158, 237, 137, 63, 35,
        1, 21, 43, 43, 110, 85, 93, 227, 84, 37, 133, 174], rfl⟩
    -- the outpoint that is signed for is after the version, the two hashes and the id
    else if (b.drop 100).take 4 = [0, 0, 0, 0] then aSighash
    else anotherSighash
  hash160 b := if b = aKey.publicKey.val then aHash160 else []
  signDER hash key :=
    if hash = aSighash ∧ key = aKey.key then some aSignature
    else if hash = anotherSighash ∧ key = aKey.key then some anotherSignature
    else none
  verifyDER der hash pub :=
    (der = aSignature ∧ hash = aSighash ∨ der = anotherSignature ∧ hash = anotherSighash) ∧
      pub = aKey.publicKey.val

def aSigner (_chain _index : UInt32) : Except Empty ExtendedKey := .ok aKey

def aChange : List Char := "pc1qw508d6qejxtdg4y5r3zarvary0c5xw7kj460t9".toList

def aDestination : Address where
  text := "pc1qqqqqqqqqqqqqqqqqqqqqqqqqqqqqqqqqmtd2rq".toList
  kind := .p2wpkh (List.replicate 20 0)
  network := .mainnet

theorem plan_sound_two_coins :
    ∃ p, plan aCrypto aSigner .simple twoCoins aDestination (some 110000) 1 (some aChange) = .ok p ∧
      p.inputs = twoCoins ∧
      Pays aDestination (some 110000) 1 ([0x00, 0x14] ++ aHash160) p.inputs p := by
  have hshort : ShortSignatures aCrypto := by
    intro hash key der h
    dsimp only [aCrypto] at h
    split_ifs at h <;> cases h <;> decide
  have hchange : Address.parse .simple aCrypto.doubleSha256 .mainnet aChange =
      .ok ⟨aChange, .p2wpkh aHash160, .mainnet⟩ := by decide +kernel
  have hinputs : (plan aCrypto aSigner .simple twoCoins aDestination (some 110000) 1
      (some aChange)).toOption.map PlannedSend.inputs = some twoCoins := by
    have hsort : (spendable twoCoins).mergeSort (fun a b => b.valueSat ≤ a.valueSat) = twoCoins := by
      rw [show spendable twoCoins = twoCoins by decide]
      exact List.mergeSort_of_pairwise (by decide)
    rw [plan, hsort]
    decide +kernel
  cases hrun : plan aCrypto aSigner .simple twoCoins aDestination (some 110000) 1 (some aChange) with
  | ok p =>
    rw [hrun] at hinputs
    obtain ⟨-, -, -, hpays⟩ := (plan_sound hshort .simple (by decide) _ _ _ hchange).1 p hrun
    exact ⟨p, rfl, Option.some.inj hinputs, hpays⟩
  | error e =>
    rw [hrun] at hinputs
    cases hinputs

end pcoin.send
