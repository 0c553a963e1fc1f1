import PCoin.Market.Ops
import Mathlib.Algebra.Order.BigOperators.Group.List
import Mathlib.Data.List.Perm.Subperm
import Mathlib.Tactic.Linarith

namespace pcoin.market.ops

/-- A live transaction with the key as its comment that one of the endpoints made. -/
def created (key : String) (e : Entry) : Bool := e.isLive && e.comment = key && e.source.isSome

/-- A live transaction that `opsSendPcn` made. -/
def Entry.sentHere (e : Entry) : Bool := e.isLive && e.source = some .send

/-- At most one live transaction of the endpoints carries a key. -/
def KeyedOnce (s : State) : Prop :=
  ∀ key, s.history.countP (created key) ≤ 1

/-- What `opsSendPcn` sent at the times `p` holds of, in units of `1e-8` PCN. -/
def sentAt (p : Nat → Bool) (history : List Entry) : Nat :=
  (history.map fun e => if e.sentHere && p e.time then e.amount.natAbs else 0).sum

/-- What `opsSendPcn` sent in the 24 hours from `a` on. -/
def sentFrom (a : Nat) (history : List Entry) : Nat :=
  sentAt (fun time => a ≤ time && time < a + 86400) history

/-- No 24 hours see more than `sendDayMaxPcn`. -/
def DayCapped (s : State) : Prop :=
  0 < s.cfg.sendDayMaxPcn → ∀ a, (sentFrom a s.history : ℚ) ≤ s.cfg.sendDayMaxPcn * 10 ^ 8

namespace State

/-- The requests that have looked in the wallet and may still spend. -/
def spending (s : State) : List Pending := s.balances ++ s.sends

/-- The entries that `listtransactions` no longer returns. -/
def old (s : State) : List Entry := s.history.take (s.history.length - 1000)

end State

theorem old_append_recent (s : State) : s.old ++ recent s.history = s.history :=
  List.take_append_drop _ _

/-- No other request that has looked and not yet spent has the same key, or counts for
the same daily limit, and `listtransactions` still returns what the lookup has to see. -/
def LooksAlone (s : State) (p : Pending) : Prop :=
  (∀ q ∈ s.spending, q.req.key ≠ p.req.key) ∧
  (∀ e ∈ s.old, created p.req.key e = false) ∧
  (p.req.endpoint = .send → 0 < s.cfg.sendDayMaxPcn →
    (∀ q ∈ s.spending, q.req.endpoint ≠ .send) ∧
    ∀ e ∈ s.old, (e.sentHere && isToday p.req.now e.time) = false)

/-- Lookups are alone, and what was abandoned or conflicted stays so. -/
def Alone (s : State) : Event → Prop
  | .lookup fid => ∀ p ∈ s.lookups, p.fid = fid → LooksAlone s p
  | .mark txid abandoned confirmations => ∀ e ∈ s.history, e.source.isSome = true →
      (e.mark txid abandoned confirmations).isLive = true → e.isLive = true
  | _ => True

instance (s : State) (p : Pending) : Decidable (LooksAlone s p) :=
  inferInstanceAs (Decidable (_ ∧ _ ∧ (_ → _ → _ ∧ _)))

instance (s : State) : (e : Event) → Decidable (Alone s e)
  | .lookup fid => inferInstanceAs (Decidable (∀ p ∈ s.lookups, p.fid = fid → LooksAlone s p))
  | .mark txid abandoned confirmations => inferInstanceAs (Decidable (∀ e ∈ s.history,
      e.source.isSome = true → (e.mark txid abandoned confirmations).isLive = true →
        e.isLive = true))
  | .post _ | .balance _ _ | .commit _ _ | .refuse _ | .throws _ | .other _ | .tick _ | .crash =>
    .isTrue trivial

@[simp] theorem answer_cfg (s : State) (fid : Nat) (a : Answer) :
    (s.answer fid a).cfg = s.cfg := by
  unfold State.answer
  split <;> rfl

@[simp] theorem answer_now (s : State) (fid : Nat) (a : Answer) :
    (s.answer fid a).now = s.now := by
  unfold State.answer
  split <;> rfl

@[simp] theorem answer_lookups (s : State) (fid : Nat) (a : Answer) :
    (s.answer fid a).lookups = s.lookups := by
  unfold State.answer
  split <;> rfl

@[simp] theorem answer_spending (s : State) (fid : Nat) (a : Answer) :
    (s.answer fid a).spending = s.spending := by
  unfold State.answer
  split <;> rfl

@[simp] theorem answer_history (s : State) (fid : Nat) (a : Answer) :
    (s.answer fid a).history = s.history := by
  unfold State.answer
  split <;> rfl

theorem without_sublist (fid : Nat) (l : List Pending) : (without fid l).Sublist l :=
  List.filter_sublist

/-- Taking a request out of a list leaves it free to go elsewhere. -/
theorem cons_without_subperm {p : Pending} {l : List Pending} (hp : p ∈ l) :
    (p :: without p.fid l).Subperm l := by
  refine List.cons_subperm_of_not_mem_of_mem ?_ hp (without_sublist p.fid l).subperm
  simp [without]

/-- How the wallet's history can change under its users. -/
inductive Noted (s : State) : Event → List Entry → Prop
  | same (e : Event) : Noted s e s.history
  | other {x : Entry} (hsource : x.source = none) : Noted s (.other x) (s.history ++ [x])
  | mark (txid : String) (abandoned : Bool) (confirmations : Int) :
      Noted s (.mark txid abandoned confirmations)
        (s.history.map (Entry.mark txid abandoned confirmations))

/-- What a step can do to the requests and the wallet: nothing new is about to be
spent, a lookup finds nothing, or the wallet commits a send. -/
inductive Moves (s : State) (e : Event) (t : State) : Prop
  | quiet (hlookups : ∀ p ∈ t.lookups, p ∈ s.lookups ∨ p.req.now = s.now)
      (hspending : t.spending.Subperm s.spending) (hhistory : Noted s e t.history)
  | looked {p : Pending} (hp : p ∈ s.lookups) (he : e = .lookup p.fid)
      (hlook : look s.cfg s.history p.req = .ok ()) (hlookups : t.lookups ⊆ s.lookups)
      (hspending : t.spending.Perm (p :: s.spending)) (hhistory : t.history = s.history)
  | commit {p : Pending} {txid : String} (hlookups : t.lookups ⊆ s.lookups)
      (hspending : (p :: t.spending).Subperm s.spending)
      (hhistory : t.history = s.history ++ [p.entry s.now txid])

theorem find_fid {l : List Pending} {fid : Nat} {p : Pending}
    (h : l.find? (·.fid = fid) = some p) : p ∈ l ∧ p.fid = fid :=
  ⟨List.mem_of_find?_eq_some h, by simpa using List.find?_some h⟩

theorem parse_now {cfg : Cfg} {now : Nat} {p : Post} {r : Request} (h : parse cfg now p = .ok r) :
    r.now = now := by
  unfold parse at h
  repeat' split at h
  all_goals cases h
  rfl

/-- An answer changes neither the requests that may spend nor the wallet. -/
theorem Moves.answer {s u : State} {e : Event} (h : Moves s e u) (fid : Nat) (a : Answer) :
    Moves s e (u.answer fid a) := by
  cases h with
  | quiet hlookups hspending hhistory =>
    exact .quiet (by simpa using hlookups) (by simpa using hspending) (by simpa using hhistory)
  | looked hp he hlook hlookups hspending hhistory =>
    exact .looked hp he hlook (by simpa using hlookups) (by simpa using hspending)
      (by simpa using hhistory)
  | commit hlookups hspending hhistory =>
    exact .commit (by simpa using hlookups) (by simpa using hspending) (by simpa using hhistory)

theorem step_moves {s t : State} {e : Event} (hstep : step s e = some t) :
    t.cfg = s.cfg ∧ s.now ≤ t.now ∧ Moves s e t := by
  have hself : ∀ p ∈ s.lookups, p ∈ s.lookups ∨ p.req.now = s.now := fun p hp => .inl hp
  have hrefl := List.Subperm.refl s.spending
  cases e with
  | post p =>
    simp only [step] at hstep
    split at hstep
    · obtain rfl := Option.some.inj hstep
      refine ⟨by simp, by simp, Moves.answer ?_ _ _⟩
      exact .quiet hself hrefl (.same _)
    · rename_i r hparse
      obtain rfl := Option.some.inj hstep
      refine ⟨rfl, le_rfl, .quiet ?_ hrefl (.same _)⟩
      intro q hq
      obtain hq | hq := List.mem_append.mp hq
      · exact .inl hq
      · obtain rfl := List.mem_singleton.mp hq
        exact .inr (parse_now hparse)
  | lookup fid =>
    simp only [step, Option.bind_eq_bind, Option.bind_eq_some_iff] at hstep
    obtain ⟨p, hfind, hstep⟩ := hstep
    obtain ⟨hp, rfl⟩ := find_fid hfind
    have hsub : without p.fid s.lookups ⊆ s.lookups := (without_sublist _ _).subset
    split at hstep
    · obtain rfl := Option.some.inj hstep
      refine ⟨by simp, by simp, Moves.answer ?_ _ _⟩
      exact .quiet (fun q hq => .inl (hsub hq)) hrefl (.same _)
    · rename_i hlook
      split at hstep
      · obtain rfl := Option.some.inj hstep
        refine ⟨rfl, le_rfl, .looked hp rfl hlook hsub ?_ rfl⟩
        simp [State.spending]
      · obtain rfl := Option.some.inj hstep
        refine ⟨rfl, le_rfl, .looked hp rfl hlook hsub ?_ rfl⟩
        simp [State.spending, ← List.append_assoc]
  | balance fid have_ =>
    simp only [step, Option.bind_eq_bind, Option.bind_eq_some_iff] at hstep
    obtain ⟨p, hfind, hstep⟩ := hstep
    obtain ⟨hp, rfl⟩ := find_fid hfind
    split at hstep
    · obtain rfl := Option.some.inj hstep
      refine ⟨by simp, by simp, Moves.answer ?_ _ _⟩
      refine .quiet hself ?_ (.same _)
      exact ((without_sublist p.fid s.balances).append_right s.sends).subperm
    · obtain rfl := Option.some.inj hstep
      refine ⟨rfl, le_rfl, .quiet hself ?_ (.same _)⟩
      have hperm : (without p.fid s.balances ++ (s.sends ++ [p])).Perm
          (p :: without p.fid s.balances ++ s.sends) := by
        rw [← List.append_assoc]
        exact List.perm_append_singleton _ _
      exact hperm.subperm.trans ((cons_without_subperm hp).append (List.Subperm.refl _))
  | commit fid txid =>
    simp only [step, Option.bind_eq_bind, Option.bind_eq_some_iff] at hstep
    obtain ⟨p, hfind, hstep⟩ := hstep
    obtain ⟨hp, rfl⟩ := find_fid hfind
    obtain rfl := Option.some.inj hstep
    refine ⟨by simp, by simp, Moves.answer ?_ _ _⟩
    refine .commit (fun _ => id) ?_ rfl
    have hperm : (p :: (s.balances ++ without p.fid s.sends)).Perm
        (s.balances ++ p :: without p.fid s.sends) := List.perm_middle.symm
    exact hperm.subperm.trans ((List.Subperm.refl _).append (cons_without_subperm hp))
  | refuse fid =>
    simp only [step, Option.bind_eq_bind, Option.bind_eq_some_iff] at hstep
    obtain ⟨p, hfind, hstep⟩ := hstep
    obtain rfl := Option.some.inj hstep
    refine ⟨by simp, by simp, Moves.answer ?_ _ _⟩
    refine .quiet hself ?_ (.same _)
    exact ((without_sublist fid s.sends).append_left s.balances).subperm
  | throws fid =>
    simp only [step] at hstep
    split at hstep
    · obtain rfl := Option.some.inj hstep
      refine ⟨by simp, by simp, Moves.answer ?_ _ _⟩
      refine .quiet ?_ hrefl (.same _)
      exact fun q hq => .inl ((without_sublist _ _).subset hq)
    · split at hstep
      · obtain rfl := Option.some.inj hstep
        refine ⟨by simp, by simp, Moves.answer ?_ _ _⟩
        exact .quiet hself hrefl (.same _)
      · cases hstep
  | other x =>
    simp only [step, Option.bind_eq_bind, Option.bind_eq_some_iff] at hstep
    obtain ⟨_, hguard, hstep⟩ := hstep
    obtain rfl := Option.some.inj hstep
    have hsource : x.source = none := by simpa [guard] using hguard
    exact ⟨rfl, le_rfl, .quiet hself hrefl (.other hsource)⟩
  | mark txid abandoned confirmations =>
    obtain rfl := Option.some.inj hstep
    exact ⟨rfl, le_rfl, .quiet hself hrefl (.mark _ _ _)⟩
  | tick ms =>
    obtain rfl := Option.some.inj hstep
    exact ⟨rfl, Nat.le_add_right _ _, .quiet hself hrefl (.same _)⟩
  | crash =>
    obtain rfl := Option.some.inj hstep
    refine ⟨rfl, le_rfl, .quiet (by simp) ?_ (.same _)⟩
    exact (List.sublist_append_right _ _).subperm

end pcoin.market.ops
