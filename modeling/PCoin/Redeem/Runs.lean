import PCoin.Redeem.Returned
import PCoin.Run.Ledger

/-! `pcoin-redeem-watch`, as runs over its ledger. -/

namespace pcoin.redeem

open run (Prog)

/-- What was paid is, what was seen is, and the scan does not go back. -/
structure Keeps (st st' : Ledger) : Prop where
  paid : ∀ key ∈ st.paid, key ∈ st'.paid
  seen : table.Evolves Seen.key (fun _ _ => True) st.seen st'.seen
  scanned_to : st.scanned_to ≤ st'.scanned_to

/-- A run of the tool. What `--ignore` records is not read by the others. -/
inductive Run
  | watch (w : World) (c : Chain)
  | paid (key : String)
  | ignore

/-- The payments of a list, by their keys. -/
def payable (tasks : List Task) : Prog Ledger String :=
  (tasks.filter fun task => task.send.isSome).foldr (fun task next => .emit task.key next) .done

def Outcome.run : Outcome → Prog Ledger String
  | .unverified | .dies => .done
  | .completes st tasks returned => .save st (payable (tasks ++ returned))

/-- What a run does with the ledger that it loads. -/
def Run.main (cfg : Config) (st : Ledger) : Run → Prog Ledger String
  | .watch w c => (redeem.main cfg w c st).run
  | .paid key => .save { st with paid := st.paid ++ [key] } .done
  | .ignore => .save st .done

def Run.prog (cfg : Config) (r : Run) : Prog Ledger String := .load fun st => r.main cfg st

/-- A redemption that is paid is listed. -/
def Bad (st : Ledger) (key : String) : Prop := key ∈ st.paid

/-- A run that ends before it saves, whatever the ledger holds. -/
def Run.Spared (cfg : Config) : Run → Prop
  | .watch w _ => w.connects = true →
    ∀ head ∈ w.head, returns cfg head w.receipt w.check_address [] w.returns = none
  | .paid _ | .ignore => False

instance (cfg : Config) : (r : Run) → Decidable (r.Spared cfg)
  | .watch w _ => inferInstanceAs (Decidable (w.connects = true →
    ∀ head ∈ w.head, returns cfg head w.receipt w.check_address [] w.returns = none))
  | .paid _ | .ignore => .isFalse id

variable {cfg : Config} {r : Run} {st st' st'' : Ledger} {file : Option Ledger} {reads : List Bool}

theorem Keeps.refl (st : Ledger) : Keeps st st :=
  ⟨fun _ h => h, table.Evolves.refl (fun _ => trivial) _, le_refl _⟩

theorem Keeps.trans (h : Keeps st st') (h' : Keeps st' st'') : Keeps st st'' where
  paid key hkey := h'.paid key (h.paid key hkey)
  seen := table.Evolves.trans (fun _ _ => trivial) h.seen h'.seen
  scanned_to := le_trans h.scanned_to h'.scanned_to

theorem record_keeps (seen : List Seen) (ev : Redeem) :
    table.Evolves Seen.key (fun _ _ => True) seen (record seen ev) :=
  table.Evolves.upsert (fun _ => trivial) (fun _ _ => rfl) fun _ _ => trivial

theorem records_keeps (events : List Redeem) (seen : List Seen) :
    table.Evolves Seen.key (fun _ _ => True) seen (events.foldl record seen) := by
  induction events generalizing seen with
  | nil => exact table.Evolves.refl (fun _ => trivial) _
  | cons ev events ih => exact table.Evolves.trans (fun _ _ => trivial) (record_keeps seen ev) (ih _)

theorem completes_keeps {w : World} {c : Chain} {tasks returned : List Task}
    (h : main cfg w c st = .completes st' tasks returned) : Keeps st st' := by
  obtain ⟨head, -, -, hpaid, hseen, hscanned, -⟩ := main_completes h
  refine ⟨fun key hkey => hpaid ▸ hkey, hseen ▸ records_keeps _ _, ?_⟩
  rw [hscanned]
  split
  · rename_i hstart
    have : st.scanned_to ≤ start cfg st := le_max_right _ _
    omega
  · exact le_refl _

theorem payable_keeps (tasks : List Task) (file : Option Ledger) : (payable tasks).Keeps Keeps {} file := by
  unfold payable
  induction tasks.filter fun task => task.send.isSome with
  | nil => trivial
  | cons task tasks ih => exact ih

theorem payable_loaded (tasks : List Task) : (payable tasks).Loaded := by
  unfold payable
  induction tasks.filter fun task => task.send.isSome with
  | nil => trivial
  | cons task tasks ih => exact ih

theorem prog_keeps (r : Run) (file : Option Ledger) : (r.prog cfg).Keeps Keeps {} file := by
  refine .load fun st _ => ?_
  cases r with
  | watch w c =>
    show Prog.Keeps Keeps {} (some st) (main cfg w c st).run
    cases hmain : main cfg w c st with
    | unverified | dies => trivial
    | completes st' tasks returned =>
      exact ⟨fun b hb => Option.some.inj hb ▸ completes_keeps hmain, payable_keeps _ _⟩
  | paid key =>
    refine ⟨fun b hb => ?_, trivial⟩
    obtain rfl := Option.some.inj hb
    exact ⟨fun _ h => List.mem_append_left _ h, (Keeps.refl st).seen, le_refl _⟩
  | ignore => exact ⟨fun b hb => Option.some.inj hb ▸ .refl _, trivial⟩

/-- A run loads once. -/
theorem main_loaded (r : Run) (st : Ledger) : (r.main cfg st).Loaded := by
  cases r with
  | watch w c =>
    show Prog.Loaded (main cfg w c st).run
    cases main cfg w c st with
    | unverified | dies => trivial
    | completes st' tasks returned => exact payable_loaded _
  | paid | ignore => trivial

/-- A run that is spared ends before it saves, if it cannot read the file. -/
theorem main_silent (h : r.Spared cfg) : (r.main cfg {}).Silent := by
  cases r with
  | watch w c =>
    show Prog.Silent (main cfg w c {}).run
    cases hmain : main cfg w c {} with
    | unverified | dies => trivial
    | completes st' tasks returned =>
      obtain ⟨head, hhead, hconnects, hpaid, -⟩ := main_completes hmain
      obtain ⟨-, -, hreturns⟩ := main_returns hmain
      rw [hhead, hpaid, Option.getD_some, h hconnects head hhead] at hreturns
      cases hreturns
  | paid | ignore => exact h.elim

theorem prog_harmless {f : run.Files Ledger String} (h : r.Spared cfg)
    (hblind : (f.trace {} (r.prog cfg) reads).blind = true) :
    (f.trace {} (r.prog cfg) reads).Harmless Bad :=
  ((main_silent h).exec_load (Prog.Loaded.fails (main_loaded r) rfl hblind) _).harmless

end pcoin.redeem
