import PCoin.Univalue.Read

namespace pcoin.univalue

theorem length_dropWhile_le {α : Type} (p : α → Bool) (l : List α) :
    (l.dropWhile p).length ≤ l.length := (List.dropWhile_suffix p).length_le

theorem scanFrac_length {raw frac rest : List Char} (h : scanFrac raw = some (frac, rest)) :
    rest.length ≤ raw.length := by
  unfold scanFrac at h
  split at h
  · rename_i tail
    split at h
    · cases h
      have := length_dropWhile_le isDigit tail
      simp only [List.length_cons]
      omega
    · cases h
  · cases h
    exact le_rfl

theorem scanSign_length (raw : List Char) : (scanSign raw).2.length ≤ raw.length := by
  unfold scanSign
  split <;> simp

theorem scanExp_length {raw exp rest : List Char} (h : scanExp raw = some (exp, rest)) :
    rest.length ≤ raw.length := by
  unfold scanExp at h
  split at h
  · rename_i e tail
    split at h
    · simp only at h
      split at h
      · cases h
        have := length_dropWhile_le isDigit (scanSign tail).2
        have := scanSign_length tail
        simp only [List.length_cons]
        omega
      · cases h
    · cases h
      exact le_rfl
  · cases h
    exact le_rfl

theorem scanNumber_length (first : Char) (raw : List Char) :
    (scanNumber first raw).2.length ≤ raw.length := by
  simp only [scanNumber]
  generalize (if isDigit first = true then first :: raw else raw) = firstDigit
  split
  · exact Nat.le_refl _
  split
  · exact Nat.le_refl _
  have hint := length_dropWhile_le isDigit raw
  cases hfrac : scanFrac (raw.dropWhile isDigit) with
  | none => exact Nat.le_refl _
  | some parts =>
    obtain ⟨frac, afterFrac⟩ := parts
    have hle := scanFrac_length hfrac
    cases hexp : scanExp afterFrac with
    | none =>
      simp only [hexp]
      omega
    | some parts =>
      obtain ⟨exp, afterExp⟩ := parts
      have hle' := scanExp_length hexp
      simp only [hexp]
      omega

theorem scanString_length {writer writer' : JSONUTF8StringFilter} {raw rest : List Char}
    (h : scanString writer raw = some (writer', rest)) : rest.length ≤ raw.length := by
  fun_induction scanString writer raw with
  | case1 => cases h
  | case2 => cases h
  | case3 writer a b c d raw codepoint hcode hraw ih =>
    have := ih h
    simp only [List.length_cons]
    omega
  | case4 => cases h
  | case5 writer c raw hshape ch hescape ih =>
    have := ih h
    simp only [List.length_cons]
    omega
  | case6 => cases h
  | case7 => cases h
  | case8 =>
    cases h
    simp
  | case9 => cases h
  | case10 writer c raw hu hslash hquote hplain hcode ih =>
    have := ih h
    simp only [List.length_cons]
    omega

/-- Every token but the end of the text takes at least one character. -/
theorem getJsonToken_length (raw : List Char) (h : (getJsonToken raw).1 ≠ .none) :
    (getJsonToken raw).2.length < raw.length := by
  have hspace := length_dropWhile_le isSpace raw
  unfold getJsonToken at h ⊢
  split at h <;> rename_i heq <;> rw [heq] at hspace <;>
    simp only [List.length_cons, List.length_nil] at hspace
  · exact absurd rfl h
  all_goals try (simp only; omega)
  · rename_i tail
    cases hscan : scanString {} tail with
    | none =>
      show tail.length < raw.length
      omega
    | some parts =>
      obtain ⟨writer, rest⟩ := parts
      have := scanString_length hscan
      simp only
      split
      · show rest.length < raw.length
        omega
      · show tail.length < raw.length
        omega
  · rename_i c tail _ _ _ _ _ _ _ _ _ _
    have := scanNumber_length c tail
    split
    · omega
    · show tail.length < raw.length
      omega

/-- The rounds of the loop do not run out. -/
theorem readLoop_fuel {m n : Nat} {r : Reader} {raw : List Char} (hm : raw.length < m)
    (hn : raw.length < n) : readLoop m r raw = readLoop n r raw := by
  induction m generalizing n r raw with
  | zero => omega
  | succ m ih =>
    obtain _ | n := n
    · omega
    simp only [readLoop]
    split
    · rfl
    · rename_i htok
      have hshort := getJsonToken_length raw (fun hnone => htok (.inl hnone))
      cases hstep : r.step (getJsonToken raw).1 with
      | none => rfl
      | some next =>
        simp only
        split
        · rfl
        · exact ih (by omega) (by omega)

/-- Every object has as many values as keys. -/
inductive WellFormed : UniValue → Prop
  | null : WellFormed .null
  | bool (val : Bool) : WellFormed (.bool val)
  | num (val : String) : WellFormed (.num val)
  | str (val : String) : WellFormed (.str val)
  | arr (values : List UniValue) : (∀ v ∈ values, WellFormed v) → WellFormed (.arr values)
  | obj (keys : List String) (values : List UniValue) : keys.length = values.length →
      (∀ v ∈ values, WellFormed v) → WellFormed (.obj keys values)

/-- The values of an open container are well-formed; an object is `owed` values for its keys. -/
structure Frame.Owed (f : Frame) (owed : Nat) : Prop where
  values : ∀ v ∈ f.values, WellFormed v
  keys : f.object = true → f.keys.length = f.values.length + owed

theorem Frame.Owed.push {f : Frame} {owed : Nat} (h : f.Owed (owed + 1)) {v : UniValue}
    (hv : WellFormed v) : (f.push v).Owed owed where
  values := by
    intro w hw
    simp only [Frame.push, List.mem_append, List.mem_singleton] at hw
    obtain hw | rfl := hw
    · exact h.values w hw
    · exact hv
  keys := by
    intro hobject
    have := h.keys hobject
    simp only [Frame.push, List.length_append, List.length_singleton]
    omega

theorem Frame.Owed.close {f : Frame} (h : f.Owed 0) : WellFormed f.close := by
  unfold Frame.close
  split
  · rename_i hobject
    exact .obj _ _ (h.keys hobject) h.values
  · exact .arr _ h.values

/-- What `read` expects next, against the innermost open value. -/
inductive Phase : Expect → Frame → Prop
  | name (f : Frame) : f.object = true → f.Owed 0 → Phase { objName := true } f
  | colon (f : Frame) : f.object = true → f.Owed 1 → Phase { colon := true, notValue := true } f
  | value (f : Frame) : f.object = true → f.Owed 1 → Phase { value := true } f
  | element (f : Frame) : f.object = false → f.Owed 1 → Phase { arrValue := true } f
  | after (f : Frame) : f.Owed 0 → Phase { notValue := true } f

/-- An array owes whatever one likes. -/
theorem Frame.Owed.of_array {f : Frame} {owed : Nat} (h : f.Owed owed) (hf : f.object = false)
    (other : Nat) : f.Owed other where
  values := h.values
  keys := fun hobject => by simp [hf] at hobject

/-- The invariant of the loop: an outer open value waits for the one inside it. -/
inductive Reader.Inv : Reader → Prop
  | start (r : Reader) : r.stack = [] → r.expect = {} → Reader.Inv r
  | inside (r : Reader) (top : Frame) (below : List Frame) : r.stack = top :: below →
      Phase r.expect top → (∀ f ∈ below, f.Owed 1) → Reader.Inv r

/-- What a step leaves: the invariant while something is open, else the finished value. -/
def Reader.Good (r : Reader) : Prop := if r.stack.isEmpty then WellFormed r.root else r.Inv

theorem Frame.Owed.opened (object : Bool) : Frame.Owed { object } 0 where
  values := by simp
  keys := by simp

theorem Reader.Good.openValue {r next : Reader} {object : Bool} (hexpect : r.expect = {})
    (hstack : ∀ f ∈ r.stack, f.Owed 1) (h : r.openValue object = some next) (tok : Token) :
    Reader.Good { next with last_tok := tok } := by
  unfold Reader.openValue at h
  split at h
  · cases h
  · cases h
    refine Reader.Inv.inside _ { object } r.stack rfl ?_ hstack
    cases object with
    | true => simpa [hexpect] using Phase.name _ rfl (.opened true)
    | false => simpa [hexpect] using Phase.element _ rfl ((Frame.Owed.opened false).of_array rfl 1)

theorem Reader.Good.putScalar {r : Reader} {v : UniValue} (hexpect : r.expect = {})
    (hstack : ∀ f ∈ r.stack, f.Owed 1) (hv : WellFormed v) (tok : Token) :
    Reader.Good { r.putScalar v with last_tok := tok } := by
  unfold Reader.putScalar Reader.put
  cases hempty : r.stack with
  | nil => simpa [Reader.Good, hempty] using hv
  | cons top below =>
    rw [hempty] at hstack
    refine Reader.Inv.inside _ (top.push v) below rfl ?_
      (fun f hf => hstack f (List.mem_cons_of_mem _ hf))
    simpa [hexpect] using Phase.after _ ((hstack top List.mem_cons_self).push hv)

theorem Reader.Good.closeValue {r next : Reader} {object : Bool} {top : Frame} {below : List Frame}
    (hexpect : r.expect = { objName := r.expect.objName }) (hstack : r.stack = top :: below)
    (htop : top.Owed 0) (hbelow : ∀ f ∈ below, f.Owed 1) (h : r.closeValue object = some next)
    (tok : Token) : Reader.Good { next with last_tok := tok } := by
  unfold Reader.closeValue at h
  rw [hstack] at h
  simp only at h
  split at h
  · cases h
  · cases h
    cases below with
    | nil => simpa [Reader.Good, Reader.put] using htop.close
    | cons outer rest =>
      refine Reader.Inv.inside _ (outer.push top.close) rest rfl ?_
        (fun f hf => hbelow f (List.mem_cons_of_mem _ hf))
      rw [hexpect]
      exact Phase.after _ ((hbelow outer List.mem_cons_self).push htop.close)

theorem Reader.step_eq {r next : Reader} {tok : Token} (h : r.step tok = some next) :
    ∃ reading acted : Reader, r.expect.take tok = some reading.expect ∧
      reading.stack = r.stack ∧ reading.act tok = some acted ∧
      next = { acted with last_tok := tok } := by
  unfold Reader.step at h
  simp only [Option.bind_eq_bind, Option.bind_eq_some_iff, Option.pure_def, Option.some.injEq] at h
  obtain ⟨expect, hadmit, acted, hact, hnext⟩ := h
  exact ⟨{ r with expect }, acted, hadmit, rfl, hact, hnext.symm⟩

/-- A token that starts a value, where one is due. -/
theorem Reader.Good.value {r next : Reader} {tok : Token} (hexpect : r.expect = {})
    (hstack : ∀ f ∈ r.stack, f.Owed 1) (hopen : tok.isValueOpen = true)
    (h : r.act tok = some next) : Reader.Good { next with last_tok := tok } := by
  cases tok with
  | objOpen => exact .openValue hexpect hstack h _
  | arrOpen => exact .openValue hexpect hstack h _
  | kwNull => cases h; exact .putScalar hexpect hstack .null _
  | kwTrue => cases h; exact .putScalar hexpect hstack (.bool true) _
  | kwFalse => cases h; exact .putScalar hexpect hstack (.bool false) _
  | number text => cases h; exact .putScalar hexpect hstack (.num text) _
  | string text =>
    simp only [Reader.act, hexpect, Bool.false_eq_true, if_false, Option.some.injEq] at h
    subst h
    exact .putScalar hexpect hstack (.str text) _
  | _ => cases hopen

/-- The next phase is the string's, as a key. -/
theorem Reader.Good.key {r next : Reader} {top : Frame} {below : List Frame} {text : String}
    (hexpect : r.expect = { objName := true }) (hstack : r.stack = top :: below)
    (hobject : top.object = true) (htop : top.Owed 0) (hbelow : ∀ f ∈ below, f.Owed 1)
    (h : r.act (.string text) = some next) (tok : Token) :
    Reader.Good { next with last_tok := tok } := by
  simp only [Reader.act, hexpect, hstack, if_true, Option.some.injEq] at h
  subst h
  refine Reader.Inv.inside _ { top with keys := top.keys ++ [text] } below rfl
    (.colon _ hobject ⟨htop.values, fun _ => ?_⟩) hbelow
  have := htop.keys hobject
  simp only [List.length_append, List.length_singleton]
  omega

/-- After a complete value the innermost open one closes or goes on. -/
theorem Reader.Good.goesOn {r next : Reader} {top : Frame} {below : List Frame} {tok : Token}
    (hexpect : r.expect = {}) (hstack : r.stack = top :: below) (htop : top.Owed 0)
    (hbelow : ∀ f ∈ below, f.Owed 1) (hopen : tok.isValueOpen = false) (hcolon : tok ≠ .colon)
    (h : r.act tok = some next) : Reader.Good { next with last_tok := tok } := by
  cases tok with
  | objClose => exact .closeValue (by rw [hexpect]) hstack htop hbelow h _
  | arrClose => exact .closeValue (by rw [hexpect]) hstack htop hbelow h _
  | comma =>
    simp only [Reader.act, hstack] at h
    split at h
    · cases h
    split at h
    · rename_i hobject
      cases h
      refine Reader.Inv.inside _ top below rfl ?_ hbelow
      simpa [hexpect] using Phase.name _ hobject htop
    · rename_i hobject
      cases h
      have harray : top.object = false := by simpa using hobject
      refine Reader.Inv.inside _ top below rfl ?_ hbelow
      simpa [hexpect] using Phase.element _ harray (htop.of_array harray 1)
  | colon => exact absurd rfl hcolon
  | err => cases h
  | none => cases h
  | _ => cases hopen

theorem Reader.Inv.step {r next : Reader} {tok : Token} (hinv : r.Inv)
    (h : r.step tok = some next) : next.Good := by
  obtain ⟨reading, acted, hadmit, hsame, hact, rfl⟩ := Reader.step_eq h
  cases hinv with
  | start hempty hnone =>
    rw [hnone] at hadmit
    rw [hempty] at hsame
    by_cases hopen : tok.isValueOpen = true
    · have hexpect : reading.expect = {} := by
        by_cases hcolon : tok = .colon
        · simp [hcolon, Token.isValueOpen, Token.isValue] at hopen
        · simp only [Expect.take, Bool.false_eq_true, if_false, hcolon] at hadmit
          exact (Option.some.inj hadmit).symm
      exact .value hexpect (by simp [hsame]) hopen hact
    · cases tok <;> simp [Token.isValueOpen, Token.isValue, Reader.act, Reader.closeValue, hsame]
        at hopen hact
  | inside top below hstack hphase hbelow =>
    rw [hstack] at hsame
    have hopened (htop : top.Owed 1) : ∀ f ∈ reading.stack, f.Owed 1 := by
      rw [hsame]
      exact List.forall_mem_cons.mpr ⟨htop, hbelow⟩
    generalize r.expect = before at hphase hadmit
    cases hphase with
    | name _ hobject htop =>
      cases tok with
      | objClose =>
        have hexpect := (Option.some.inj hadmit).symm
        exact .closeValue (by rw [hexpect]) hsame htop hbelow hact _
      | string text => exact .key (Option.some.inj hadmit).symm hsame hobject htop hbelow hact _
      | _ => cases hadmit
    | colon _ hobject htop =>
      cases tok with
      | colon =>
        have hexpect := (Option.some.inj hadmit).symm
        simp only [Reader.act, hsame, hobject, if_true, Option.some.injEq] at hact
        subst hact
        refine Reader.Inv.inside _ top below rfl ?_ hbelow
        simpa [hexpect] using Phase.value _ hobject htop
      | _ => cases hadmit
    | value _ hobject htop =>
      cases hopen : tok.isValueOpen with
      | true =>
        simp [Expect.take, hopen] at hadmit
        exact .value hadmit.symm (hopened htop) hopen hact
      | false => simp [Expect.take, hopen] at hadmit
    | element _ harray htop =>
      cases hopen : tok.isValueOpen with
      | true =>
        simp [Expect.take, hopen] at hadmit
        exact .value hadmit.symm (hopened htop) hopen hact
      | false =>
        by_cases hclose : tok = .arrClose
        · subst hclose
          have hexpect := (Option.some.inj hadmit).symm
          exact .closeValue (by rw [hexpect]) hsame (htop.of_array harray 0) hbelow hact _
        · simp [Expect.take, hopen, hclose] at hadmit
    | after _ htop =>
      by_cases hcolon : tok = .colon
      · subst hcolon
        cases hadmit
      cases hopen : tok.isValueOpen with
      | true => simp [Expect.take, hopen, hcolon] at hadmit
      | false =>
        simp [Expect.take, hopen, hcolon] at hadmit
        exact .goesOn hadmit.symm hsame htop hbelow hopen hcolon hact

theorem readLoop_wellFormed {fuel : Nat} {r : Reader} {raw rest : List Char} {v : UniValue}
    (hinv : r.Inv) (h : readLoop fuel r raw = some (v, rest)) : WellFormed v := by
  induction fuel generalizing r raw with
  | zero => cases h
  | succ fuel ih =>
    simp only [readLoop] at h
    split at h
    · cases h
    cases hstep : r.step (getJsonToken raw).1 with
    | none => simp [hstep] at h
    | some next =>
      have hgood := hinv.step hstep
      unfold Reader.Good at hgood
      simp only [hstep] at h
      split at h
      · rename_i hempty
        rw [if_pos hempty] at hgood
        cases h
        exact hgood
      · rename_i hopen
        rw [if_neg hopen] at hgood
        exact ih hgood h

/-- `read` never leaves an object with a key and no value. -/
theorem read_wellFormed {raw : List Char} {v : UniValue} (h : read raw = some v) :
    WellFormed v := by
  unfold read at h
  split at h
  · rename_i root rest hloop
    split at h
    · cases h
      exact readLoop_wellFormed (.start {} rfl rfl) hloop
    · cases h
  · cases h

namespace UniValue

/-- The member a key names, `null` where there is none. -/
def field : UniValue → String → UniValue
  | obj keys values, key => ((keys.idxOf? key).bind (values[·]?)).getD null
  | _, _ => null

end UniValue

/-- `find_value` does not throw on what `read` gives. -/
theorem WellFormed.find_value {v : UniValue} (h : WellFormed v) (key : String) :
    v.find_value key = .ok (v.field key) := by
  cases h with
  | obj keys values hlength _ =>
    simp only [UniValue.find_value, UniValue.field]
    cases hindex : keys.idxOf? key with
    | none => rfl
    | some i =>
      have hlt : i < values.length := by
        obtain ⟨hi, -⟩ := List.idxOf?_eq_some_iff.mp hindex
        omega
      simp [List.getElem?_eq_getElem hlt]
  | _ => rfl

theorem WellFormed.field {v : UniValue} (h : WellFormed v) (key : String) :
    WellFormed (v.field key) := by
  cases h with
  | obj keys values _ hvalues =>
    simp only [UniValue.field]
    cases hvalue : (keys.idxOf? key).bind (values[·]?) with
    | none => exact .null
    | some w =>
      obtain ⟨i, -, hget⟩ := Option.bind_eq_some_iff.mp hvalue
      exact hvalues w (List.mem_of_getElem? hget)
  | _ => exact .null

end pcoin.univalue
