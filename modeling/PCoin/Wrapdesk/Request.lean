import PCoin.Run.Ledger
import PCoin.Wrapdesk.Requests

/-! `POST /request` as a run over the requests file. -/

namespace pcoin.wrapdesk.desk

open run (Prog)

/-- A call on its own, with what it meets at its monthly check and after its reads of deposits. -/
structure Post where
  ask : Ask
  before : World
  after : World
  /-- Whether the browser sends the claim of the key that the call comes to. -/
  holds : Bool := false
  deposits : String → Option Nat := fun _ => none

variable (cfg : Config)

/-- The checks before the first load. -/
def asks (w : World) (a : Ask) : Bool :=
  isBsc a.bsc && 0 < a.amount && !w.blocked && (!cfg.REQUIRE_ACCOUNT || a.account.isSome)

/-- The monthly limit. -/
def monthly (w : World) (a : Ask) (st : File) : Bool :=
  a.account.all fun email => a.amount ≤ leftPcn cfg w st email + 1 / 10 ^ 8

/-- The key that a call comes to: of the first of its own requests whose address has received
nothing, or a fresh one. -/
def keyOf (deposits : String → Option Nat) (a : Ask) (st : File) : String :=
  match a.account with
  | none => lowerCase a.bsc
  | some email => match (mineHere a email st).find? fun r => deposits r.address = some 0 with
    | some r => r.key
    | none => freshKey a st

/-- What a call makes of the file that it has loaded. -/
def Post.outcome (p : Post) (st : File) : Outcome :=
  answer cfg p.after p.holds p.ask st (keyOf p.deposits p.ask st)

def Post.finish (p : Post) (st : File) : Prog File String :=
  match p.outcome cfg st with
  | .refused => .done
  | .shows r => .emit r.address .done
  | .saves st' r => .save st' (.emit r.address .done)

/-- A call from the limit of one request on. -/
def Post.capped (p : Post) : Prog File String :=
  if cfg.PER_PERSON < p.ask.amount then .done else .load (p.finish cfg)

/-- `POST /request`. The addresses that are shown are seen. -/
def request (p : Post) : Prog File String :=
  if !asks cfg p.before p.ask then .done
  else if p.ask.account.isNone then p.capped cfg
  else .load fun st => if monthly cfg p.before p.ask st then p.capped cfg else .done

/-- The limits refuse a request of an empty file. -/
def full (w : World) (a : Ask) : Bool :=
  cfg.TOTAL_ALLOC - max 0 w.deposited + 1 / 10 ^ 8 < wpcnFor cfg a.amount || !daily cfg w a {} ||
    cfg.pool.slots.length ≤ FIRST_INDEX || (cfg.pool.slots.find? (·.1 = FIRST_INDEX)).isNone

/-- A call is refused without a load, or by the limits of an empty file when its load fails. -/
def Post.Refused (p : Post) (reads : List Bool) : Prop :=
  asks cfg p.before p.ask = false ∨ cfg.PER_PERSON < p.ask.amount ∨
    (reads.headD true = false ∧ monthly cfg p.before p.ask {} = false) ∨
    ((if p.ask.account.isSome then reads.tail else reads).headD true = false ∧
      full cfg p.after p.ask = true)

instance (p : Post) (reads : List Bool) : Decidable (p.Refused cfg reads) :=
  inferInstanceAs (Decidable (asks cfg p.before p.ask = false ∨ cfg.PER_PERSON < p.ask.amount ∨
    (reads.headD true = false ∧ monthly cfg p.before p.ask {} = false) ∨
    ((if p.ask.account.isSome then reads.tail else reads).headD true = false ∧
      full cfg p.after p.ask = true)))

variable {cfg} {p : Post} {st st' : File} {r : Req} {holds : Bool} {a : Ask} {key : String} {w : World}
  {file : Option File} {reads : List Bool}

theorem gates_eq (w : World) (a : Ask) (st : File) :
    gates cfg w a st = (asks cfg w a && monthly cfg w a st && decide (a.amount ≤ cfg.PER_PERSON)) := rfl

/-- A call adds to the file that it has loaded. -/
theorem Saved.extends (h : Saved cfg holds a st key st' r) : Extends st st' := by
  cases h with
  | create r hkey hnone haccount hindex hslot =>
    refine ⟨Nat.le_succ _, [r.kept], List.map_append, fun x hx => ?_⟩
    have hx : x.index = r.index := by rw [List.mem_singleton.mp hx]; rfl
    rw [hx, hindex]
    exact ⟨Nat.le_refl _, Nat.lt_succ_self _⟩
  | restate r r₀ rows hkey howns hkept hrows =>
    exact ⟨Nat.le_refl _, [], hrows.trans (List.append_nil _).symm, fun x hx => (by cases hx)⟩

theorem finish_keeps (p : Post) (st : File) : (p.finish cfg st).Keeps Extends {} (some st) := by
  unfold Post.finish
  split
  · trivial
  · trivial
  · rename_i st' r houtcome
    exact ⟨fun b hb => Option.some.inj hb ▸ (answer_saves houtcome).extends, trivial⟩

theorem capped_keeps (p : Post) (file : Option File) : (p.capped cfg).Keeps Extends {} file := by
  unfold Post.capped
  split
  · trivial
  · exact .load fun st _ => finish_keeps p st

theorem request_keeps (p : Post) (file : Option File) : (request cfg p).Keeps Extends {} file := by
  unfold request
  split
  · trivial
  split
  · exact capped_keeps p file
  · refine .load fun st _ => ?_
    split
    · exact capped_keeps p _
    · trivial

/-- The limits of an empty file. -/
theorem answer_empty (h : full cfg w a = true) : answer cfg w holds a {} key = .refused := by
  simp only [full, Bool.or_eq_true, decide_eq_true_eq, Bool.not_eq_true', Option.isNone_iff_eq_none,
    or_assoc] at h
  have hrequested : requested cfg w {} key = 0 := rfl
  have hnone : File.request {} key = none := rfl
  unfold answer
  simp only [hrequested, hnone]
  split
  · rfl
  rename_i hroom
  split
  · rfl
  rename_i hdaily
  split
  · rfl
  rename_i hpool
  split
  · rfl
  · rename_i slot hslot
    obtain h | h | h | h := h
    · exact absurd h hroom
    · rw [h] at hdaily
      exact absurd rfl hdaily
    · exact absurd h hpool
    · rw [h] at hslot
      cases hslot

theorem finish_silent (h : full cfg p.after p.ask = true) : (p.finish cfg {}).Silent := by
  rw [Post.finish, Post.outcome, answer_empty h]
  trivial

theorem capped_same {t : run.Trace File String}
    (h : cfg.PER_PERSON < p.ask.amount ∨ (reads.headD true = false ∧ full cfg p.after p.ask = true)) :
    ((p.capped cfg).exec {} reads t).Same t := by
  unfold Post.capped
  split
  · exact ⟨rfl, rfl, rfl⟩
  · rename_i hcap
    obtain hover | ⟨hreads, hfull⟩ := h
    · exact absurd hover hcap
    · exact (finish_silent hfull).exec_load hreads t

/-- A call that is refused shows nothing, and saves nothing. -/
theorem request_same {t : run.Trace File String} (h : p.Refused cfg reads) :
    ((request cfg p).exec {} reads t).Same t := by
  unfold request
  split
  · exact ⟨rfl, rfl, rfl⟩
  rename_i hasks
  replace h := h.resolve_left (by simpa using hasks)
  split
  · rename_i hnone
    refine capped_same (h.imp_right fun h => ?_)
    obtain ⟨-, hmonthly⟩ | hlast := h
    · rw [monthly, Option.isNone_iff_eq_none.mp hnone] at hmonthly
      cases hmonthly
    · rwa [Option.isSome_eq_false_iff.mpr hnone] at hlast
  · rename_i hsome
    rw [Option.isSome_iff_ne_none.mpr fun h => hsome (Option.isNone_iff_eq_none.mpr h), if_pos rfl] at h
    -- the rest, with what the first load gives
    have hrest : ∀ st t, (reads.headD true = false → monthly cfg p.before p.ask {} = false →
        monthly cfg p.before p.ask st = false) →
        (Prog.exec {} (if monthly cfg p.before p.ask st then p.capped cfg else .done) reads.tail t).Same t := by
      intro st t hfirst
      split
      · rename_i hmonthly
        refine capped_same (h.imp_right fun h => h.resolve_left ?_)
        rintro ⟨hreads, hempty⟩
        rw [hfirst hreads hempty] at hmonthly
        cases hmonthly
      · exact ⟨rfl, rfl, rfl⟩
    unfold Prog.exec
    split
    · rename_i hreads
      exact hrest _ t fun h => absurd (hreads.symm.trans h) Bool.noConfusion
    · exact hrest {} _ fun _ h => h

end pcoin.wrapdesk.desk
