import PCoin.Run.Basic
import PCoin.Run.Ledger
import PCoin.Wrapdesk.Return
import PCoin.Wrapdesk.Watch

/-! `POST /return` and `pcoin-wrapdesk-watch`, as runs over their ledgers. -/

namespace pcoin.wrapdesk.returns

open run (Prog)

/-- What a call leaves as it is of a claim. -/
def Record.claim (r : Record) : Record :=
  { r with pcoinAddress := "", signature := "", verified := false, previous := none }

def Record.Same (r r' : Record) : Prop := r'.claim = r.claim

/-- Every claim is still there. -/
def Keeps : List Record → List Record → Prop := table.Evolves Record.key Record.Same

/-- `POST /return`. Its checks come before the load. -/
def postRun (cfg : Config) (b : Body) (answers : Bool) (node : Node) : Prog (List Record) Empty :=
  match received cfg b answers node with
  | none => .done
  | some got => .load fun claims => match recordTransfers b got claims with
    | none => .done
    | some claims' => .save claims' .done

variable {cfg : Config} {b : Body} {answers : Bool} {node : Node} {got : List redeem.Log × Bool}
  {claims claims' : List Record}

theorem Record.Same.refl (r : Record) : r.Same r := rfl

theorem Keeps.refl (claims : List Record) : Keeps claims claims := table.Evolves.refl Record.Same.refl claims

theorem Keeps.trans {claims'' : List Record} (h : Keeps claims claims') (h' : Keeps claims' claims'') :
    Keeps claims claims'' :=
  table.Evolves.trans (fun {r r' r''} (h : r.Same r') (h' : r'.Same r'') => h'.trans h) h h'

theorem recordTransfer_keeps {verified : Bool} {l : redeem.Log}
    (h : recordTransfer b verified claims l = .ok claims') : Keeps claims claims' := by
  obtain rfl | ⟨prev, -, -, -, rfl⟩ | ⟨-, rfl⟩ := recordTransfer_cases h
  · exact .refl _
  · exact table.Evolves.update Record.Same.refl (fun _ hkey => hkey) fun _ _ => rfl
  · exact table.Evolves.append Record.Same.refl _

theorem recordTransfers_keeps (h : recordTransfers b got claims = some claims') : Keeps claims claims' :=
  run.foldlM_invariant (p := Keeps claims) (fun _ _ _ hs hpass => hs.trans (recordTransfer_keeps hpass)) _
    (.refl claims) (eq_ok_of_toOption h)

theorem postRun_keeps (file : Option (List Record)) : (postRun cfg b answers node).Keeps Keeps [] file := by
  unfold postRun
  split
  · trivial
  · refine .load fun claims _ => ?_
    split
    · trivial
    · rename_i claims' hclaims
      exact ⟨fun c hc => Option.some.inj hc ▸ recordTransfers_keeps hclaims, trivial⟩

/-- A call that its checks refuse does not come to the ledger. -/
theorem postRun_same {reads : List Bool} {t : run.Trace (List Record) Empty}
    (h : received cfg b answers node = none) : ((postRun cfg b answers node).exec [] reads t).Same t := by
  rw [postRun, h]
  exact ⟨rfl, rfl, rfl⟩

end pcoin.wrapdesk.returns

namespace pcoin.wrapdesk.watch

open run (Prog)
open keeper (Tx Log)

/-- What the file holds. -/
structure Ledger where
  seen : List Seen := []
  sends : List Send := []
  outstanding : List Outstanding := []
deriving DecidableEq

def Ledger.over (l : Ledger) (s : State) : State :=
  { s with seen := l.seen, sends := l.sends, outstanding := l.outstanding }

def State.ledger (s : State) : Ledger :=
  { seen := s.seen, sends := s.sends, outstanding := s.outstanding }

/-- A run lists a deposit as payable, or pays it. -/
inductive Act
  | payable (key : String)
  | pays (key : String) (tx : Tx)
deriving DecidableEq

/-- What is settled stays so. -/
def Seen.Stays (v v' : Seen) : Prop :=
  (v.released = true → v'.released = true) ∧ (v.refunded = true → v'.refunded = true)

/-- What is settled stays so, and what was sent keeps its entry. -/
structure Keeps (l l' : Ledger) : Prop where
  seen : table.Evolves Seen.key Seen.Stays l.seen l'.seen
  sends : table.Evolves Send.key (fun _ _ => True) l.sends l'.sends

/-- What a run of `--send` meets. -/
structure Pays where
  arg : String
  day : String
  dry : Bool := false
  connects : Bool := true
  have_ : Nat
  bnb : Nat
  nonce : Nat
  gas : Nat
  gasPrice : Nat
  /-- Whether the broadcast is answered. -/
  answered : Bool := true
  receipt : Option (Nat × List Log)
  /-- Whether the chain answers the check. -/
  checks : Bool := true

/-- A run of the tool. `--not-a-deposit` records what `--refunded` without an amount does. -/
inductive Run
  | timer (watch : List Watched) (dry dies : Bool)
  | send (i : Pays)
  | released (s : State) (arg : String) (hash : Option Hash) (answered : Bool)
  | forced (arg : String) (hash : Option Hash)
  | refunded (arg : String) (pcn : Option Amount)

def listed (outstanding : List Outstanding) : Prog Ledger Act :=
  outstanding.foldr (fun o next => .emit (.payable o.key) next) .done

/-- The run of the timer. It dies between its load and its save, or not. -/
def timerRun (cfg : Config) (watch : List Watched) (dry dies : Bool) (l : Ledger) : Prog Ledger Act :=
  if dies then .done
  else
    let outstanding := rebuild cfg l.seen watch
    if dry then listed outstanding else .save { l with outstanding := outstanding } (listed outstanding)

variable (cfg : Config)

/-- `--send` after its broadcast. -/
def Pays.closes (i : Pays) (p : Proc) (tx : Tx) (l : Ledger) : Prog Ledger Act :=
  let new : Send := { key := p.key, day := i.day, wpcn := p.amount, dest := p.dest, broadcast := tx }
  let l := { l with sends := table.upsert Send.key p.key (fun _ => new) new l.sends }
  .save l <|
    if i.receipt.map Prod.fst ≠ some 1 ∨ i.checks = false then .done
    else match verify_wpcn_sent cfg i.receipt (.ours tx) p.dest p.amount with
      | .yes e =>
        let confirm (r : Send) : Send := { r with confirmed := true }
        let release (v : Seen) : Seen :=
          { v with released := true, bsc_txhash := some (.ours tx), verified := some e,
                   send_wpcn := some p.amount }
        .save { l with
          seen := table.upsert Seen.key p.key release (release { key := p.key }) l.seen
          sends := table.update Send.key p.key confirm l.sends } .done
      | _ => .done

/-- `--send`. -/
def Pays.run (i : Pays) (l : Ledger) : Prog Ledger Act :=
  match send cfg (l.over {}) (bare i.arg) i.day with
  | .error _ => .done
  | .ok p =>
    if !i.connects || i.dry then .done
    else if units p.amount ≤ 0 ∨ (i.have_ : Int) < units p.amount ∨ i.bnb = 0 then .done
    else
      let tx : Tx :=
        { nonce := i.nonce, body := .transfer cfg.TOKEN p.dest (units p.amount).toNat, gas := i.gas,
          gasPrice := i.gasPrice }
      .emit (.pays p.key tx) <| if i.answered then i.closes cfg p tx l else .done

/-- A run saves what it makes of the ledger, if it does not refuse. -/
def saves (s : Option State) : Prog Ledger Act :=
  match s with
  | none => .done
  | some s => .save s.ledger .done

/-- What a run does with the ledger that it loads. -/
def Run.main (l : Ledger) : Run → Prog Ledger Act
  | .timer watch dry dies => timerRun cfg watch dry dies l
  | .send i => i.run cfg l
  | .released s arg hash answered => saves (release cfg (l.over s) arg hash answered)
  | .forced arg hash => saves (force (l.over {}) arg hash)
  | .refunded arg pcn => saves (refund (l.over {}) arg pcn)

def Run.prog (r : Run) : Prog Ledger Act := .load fun l => r.main cfg l

/-- What is bad of a run: it lists a deposit that the ledger has as settled, or it pays. -/
def Bad (l : Ledger) : Act → Prop
  | .payable key => closed l.seen key = true
  | .pays _ _ => True

/-- A run that does no harm when it cannot read the file: it refuses for want of a deposit, it dies,
or it only lists, where no deposit that it finds is settled. -/
def Run.Spared (file : Option Ledger) : Run → Prop
  | .timer watch dry dies => dies = true ∨ dry = true ∧ ∀ l ∈ file, ∀ w ∈ watch,
    ∀ it ∈ w.items.getD [], closed l.seen (it.txid ++ ":" ++ w.address) = false
  | .send _ | .released .. => True
  | .forced arg _ | .refunded arg _ => ':' ∉ (bare arg).toList

instance (file : Option Ledger) : (r : Run) → Decidable (r.Spared file)
  | .timer watch dry dies => inferInstanceAs (Decidable (dies = true ∨ dry = true ∧ ∀ l ∈ file, ∀ w ∈ watch,
    ∀ it ∈ w.items.getD [], closed l.seen (it.txid ++ ":" ++ w.address) = false))
  | .send _ | .released .. => .isTrue trivial
  | .forced arg _ | .refunded arg _ => inferInstanceAs (Decidable (':' ∉ (bare arg).toList))

variable {cfg} {l l' l'' : Ledger} {s t : State} {r : Run} {file : Option Ledger} {reads : List Bool}
  {key : String} {f : Seen → Seen}

theorem Seen.Stays.refl (v : Seen) : v.Stays v := ⟨id, id⟩

theorem Seen.Stays.trans {v v' v'' : Seen} (h : v.Stays v') (h' : v'.Stays v'') : v.Stays v'' :=
  ⟨h'.1 ∘ h.1, h'.2 ∘ h.2⟩

theorem Keeps.refl (l : Ledger) : Keeps l l :=
  ⟨table.Evolves.refl Seen.Stays.refl _, table.Evolves.refl (fun _ => trivial) _⟩

theorem Keeps.trans (h : Keeps l l') (h' : Keeps l' l'') : Keeps l l'' where
  seen := table.Evolves.trans Seen.Stays.trans h.seen h'.seen
  sends := table.Evolves.trans (fun _ _ => trivial) h.sends h'.sends

/-- A deposit is marked, and stays settled if it is. -/
theorem mark_keeps (hkey : ∀ v, (f v).key = v.key) (hstays : ∀ v : Seen, v.Stays (f v)) :
    Keeps s.ledger (s.mark key f).ledger where
  seen := table.Evolves.upsert Seen.Stays.refl (fun v hv => (hkey v).trans hv) fun v _ => hstays v
  sends := table.Evolves.refl (fun _ => trivial) _

theorem listed_keeps (outstanding : List Outstanding) (file : Option Ledger) :
    (listed outstanding).Keeps Keeps {} file := by
  induction outstanding with
  | nil => trivial
  | cons o outstanding ih => exact ih

theorem saves_keeps {s : Option State} (h : ∀ t ∈ s, Keeps l t.ledger) :
    (saves s).Keeps Keeps {} (some l) := by
  cases s with
  | none => trivial
  | some t => exact ⟨fun b hb => Option.some.inj hb ▸ h t rfl, trivial⟩

/-- `--released` is for an outstanding deposit. -/
theorem release_spec {arg : String} {hash : Option Hash} {answered : Bool}
    (h : release cfg s arg hash answered = some t) : Keeps s.ledger t.ledger ∧ s.outstanding ≠ [] := by
  obtain ⟨key, -, h⟩ := Option.bind_eq_some_iff.mp h
  obtain ⟨_, -, h⟩ := Option.bind_eq_some_iff.mp h
  obtain ⟨_, -, h⟩ := Option.bind_eq_some_iff.mp h
  obtain ⟨hash, -, h⟩ := Option.bind_eq_some_iff.mp h
  obtain ⟨out, hout, h⟩ := Option.bind_eq_some_iff.mp h
  obtain ⟨dest, -, h⟩ := Option.bind_eq_some_iff.mp h
  obtain ⟨_, -, h⟩ := Option.bind_eq_some_iff.mp h
  refine ⟨?_, List.ne_nil_of_mem (table.find_spec hout).1⟩
  split at h
  · cases h
    exact mark_keeps (fun _ => rfl) fun _ => ⟨fun _ => rfl, id⟩
  · cases h

theorem force_spec {arg : String} {hash : Option Hash} (h : force s arg hash = some t) :
    Keeps s.ledger t.ledger ∧ ∃ key, resolve s.outstanding (bare arg) = some key ∧ ':' ∈ key.toList := by
  obtain ⟨key, hkey, h⟩ := Option.bind_eq_some_iff.mp h
  obtain ⟨_, -, h⟩ := Option.bind_eq_some_iff.mp h
  obtain ⟨_, hguard, h⟩ := Option.bind_eq_some_iff.mp h
  cases h
  exact ⟨mark_keeps (fun _ => rfl) fun _ => ⟨fun _ => rfl, id⟩, key, hkey,
    (Option.guard_eq_some' _).mp hguard⟩

theorem refund_spec {arg : String} {pcn : Option Amount} (h : refund s arg pcn = some t) :
    Keeps s.ledger t.ledger ∧ ':' ∈ (bare arg).toList := by
  obtain ⟨_, hguard, h⟩ := Option.bind_eq_some_iff.mp h
  cases h
  exact ⟨mark_keeps (fun _ => rfl) fun _ => ⟨id, fun _ => rfl⟩, (Option.guard_eq_some' _).mp hguard⟩

/-- A payment leaves an entry, and settles its deposit if it is checked. -/
theorem closes_keeps (i : Pays) (p : Proc) (tx : Tx) (l : Ledger) :
    (i.closes cfg p tx l).Keeps Keeps {} (some l) := by
  unfold Pays.closes
  refine ⟨fun b hb => ?_, ?_⟩
  · obtain rfl := Option.some.inj hb
    exact ⟨(Keeps.refl l).seen, table.Evolves.upsert (fun _ => trivial) (fun _ _ => rfl) fun _ _ => trivial⟩
  · split
    · trivial
    split
    · refine ⟨fun b hb => ?_, trivial⟩
      obtain rfl := Option.some.inj hb
      exact ⟨table.Evolves.upsert Seen.Stays.refl (fun _ hv => hv) fun v _ => ⟨fun _ => rfl, id⟩,
        table.Evolves.update (fun _ => trivial) (fun _ hr => hr) fun _ _ => trivial⟩
    · trivial

theorem pays_keeps (i : Pays) (l : Ledger) : (i.run cfg l).Keeps Keeps {} (some l) := by
  unfold Pays.run
  split
  · trivial
  split
  · trivial
  split
  · trivial
  show Prog.Keeps Keeps {} (some l) (if i.answered then _ else _)
  split
  · exact closes_keeps i _ _ l
  · trivial

theorem timerRun_keeps (watch : List Watched) (dry dies : Bool) (l : Ledger) :
    (timerRun cfg watch dry dies l).Keeps Keeps {} (some l) := by
  unfold timerRun
  split
  · trivial
  simp only
  split
  · exact listed_keeps _ _
  · refine ⟨fun b hb => ?_, listed_keeps _ _⟩
    obtain rfl := Option.some.inj hb
    exact ⟨(Keeps.refl l).seen, (Keeps.refl l).sends⟩

theorem main_keeps (r : Run) (l : Ledger) : (r.main cfg l).Keeps Keeps {} (some l) := by
  cases r with
  | timer watch dry dies => exact timerRun_keeps watch dry dies l
  | send i => exact pays_keeps i l
  | released s arg hash answered => exact saves_keeps fun t ht => (release_spec ht).1
  | forced arg hash => exact saves_keeps fun t ht => (force_spec ht).1
  | refunded arg pcn => exact saves_keeps fun t ht => (refund_spec ht).1

theorem prog_keeps (r : Run) (file : Option Ledger) : (r.prog cfg).Keeps Keeps {} file :=
  .load fun l _ => main_keeps r l

theorem mem_rebuildItem {seen : List Seen} {w : Watched} {t : Tally} {it : Item} {o : Outstanding}
    (ho : o ∈ (rebuildItem cfg seen w t it).outstanding) :
    o.key = it.txid ++ ":" ++ w.address ∨ o ∈ t.outstanding := by
  unfold rebuildItem at ho
  simp only at ho
  split at ho
  · exact .inr ho
  split at ho
  · exact .inr ho
  split at ho
  · exact .inr ho
  split at ho
  · exact .inr ho
  split at ho
  · exact .inr ho
  · exact (table.mem_upsert ho).imp_left fun ho => congrArg Outstanding.key ho

/-- What is listed was found on the chain. -/
theorem mem_rebuild {seen : List Seen} {watch : List Watched} {o : Outstanding}
    (ho : o ∈ rebuild cfg seen watch) :
    ∃ w ∈ watch, ∃ it ∈ w.items.getD [], o.key = it.txid ++ ":" ++ w.address := by
  have haddress : ∀ (t : Tally) (w : Watched), o ∈ (rebuildAddress cfg seen t w).outstanding →
      (∃ it ∈ w.items.getD [], o.key = it.txid ++ ":" ++ w.address) ∨ o ∈ t.outstanding :=
    fun t w h => run.exists_of_foldl (f := rebuildItem cfg seen w) (q := fun t => o ∈ t.outstanding)
      (fun _ _ h => mem_rebuildItem h) _ (s := { t with prior := 0 }) h
  exact (run.exists_of_foldl (q := fun t : Tally => o ∈ t.outstanding) haddress watch
    (s := {}) ho).resolve_right fun h => (by cases h)

/-- What is seen of a list. -/
theorem listed_exec (outstanding : List Outstanding) (t : run.Trace Ledger Act) :
    (listed outstanding).exec {} reads t =
      { t with seen := t.seen ++ outstanding.map fun o => .payable o.key } := by
  induction outstanding generalizing t with
  | nil => rw [List.map_nil, List.append_nil]; rfl
  | cons o outstanding ih =>
    refine (ih { t with seen := t.seen ++ [.payable o.key] }).trans ?_
    rw [List.map_cons, List.append_assoc]
    rfl

/-- A run that names a deposit is refused by a ledger without any. -/
theorem main_silent (h : r.Spared file) (htimer : ∀ watch dry, r = .timer watch dry false → False) :
    (r.main cfg {}).Silent := by
  cases r with
  | timer watch dry dies =>
    cases dies with
    | false => exact (htimer watch dry rfl).elim
    | true => trivial
  | send i => trivial
  | released s arg hash answered =>
    have hnone : release cfg (Ledger.over {} s) arg hash answered = none :=
      Option.eq_none_iff_forall_ne_some.mpr fun t ht => (release_spec ht).2 rfl
    rw [Run.main, hnone]
    trivial
  | forced arg hash =>
    have hnone : force (Ledger.over {} {}) arg hash = none := by
      refine Option.eq_none_iff_forall_ne_some.mpr fun t ht => ?_
      obtain ⟨-, key, hkey, hcolon⟩ := force_spec ht
      obtain rfl : bare arg = key := Option.some.inj hkey
      exact h hcolon
    rw [Run.main, hnone]
    trivial
  | refunded arg pcn =>
    have hnone : refund (Ledger.over {} {}) arg pcn = none :=
      Option.eq_none_iff_forall_ne_some.mpr fun t ht => h (refund_spec ht).2
    rw [Run.main, hnone]
    trivial

theorem listed_loaded (outstanding : List Outstanding) : (listed outstanding).Loaded := by
  induction outstanding with
  | nil => trivial
  | cons o outstanding ih => exact ih

theorem saves_loaded (s : Option State) : (saves s).Loaded := by
  cases s <;> trivial

theorem pays_loaded (i : Pays) (l : Ledger) : (i.run cfg l).Loaded := by
  unfold Pays.run
  split
  · trivial
  split
  · trivial
  split
  · trivial
  show Prog.Loaded (if i.answered then _ else _)
  split
  · show Prog.Loaded (if _ then _ else _)
    split
    · trivial
    split <;> trivial
  · trivial

/-- A run loads once. -/
theorem main_loaded (r : Run) (l : Ledger) : (r.main cfg l).Loaded := by
  cases r with
  | timer watch dry dies =>
    show Prog.Loaded (timerRun cfg watch dry dies l)
    unfold timerRun
    split
    · trivial
    simp only
    split
    · exact listed_loaded _
    · exact listed_loaded _
  | send i => exact pays_loaded i l
  | released | forced | refunded => exact saves_loaded _

/-- A run that is spared does no harm when it cannot read the file. -/
theorem prog_harmless {f : run.Files Ledger Act} (h : r.Spared f.file)
    (hblind : (f.trace {} (r.prog cfg) reads).blind = true) :
    (f.trace {} (r.prog cfg) reads).Harmless Bad := by
  have hreads := Prog.Loaded.fails (main_loaded r) rfl hblind
  by_cases htimer : ∃ watch dry, r = .timer watch dry false
  · obtain ⟨watch, dry, rfl⟩ := htimer
    obtain hdies | ⟨rfl, hsettled⟩ := h
    · cases hdies
    have htrace : f.trace {} (Run.prog cfg (.timer watch true false)) reads =
        { file := f.file, blind := f.file.isSome
          seen := (rebuild cfg [] watch).map fun o => .payable o.key } := by
      unfold run.Files.trace Run.prog Prog.exec
      rw [if_neg (by rw [hreads]; exact Bool.false_ne_true)]
      exact (listed_exec _ _).trans (by rw [List.nil_append, Bool.false_or])
    rw [htrace]
    refine ⟨rfl, fun l hl act hact => ?_⟩
    obtain ⟨o, ho, rfl⟩ := List.mem_map.mp hact
    obtain ⟨w, hw, it, hit, hkey⟩ := mem_rebuild ho
    rw [Bad, hkey, hsettled l hl w hw it hit]
    exact Bool.false_ne_true
  · exact ((main_silent h fun watch dry hr => htimer ⟨watch, dry, hr⟩).exec_load hreads _).harmless

end pcoin.wrapdesk.watch
