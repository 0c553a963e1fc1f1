import Mathlib.Data.List.Basic
import Mathlib.Logic.Relation

namespace run

variable {σ ε : Type*}

/-- Runs of a partial step function in which every event meets the condition `ok`
in the state it is taken in. -/
inductive Steps (step : σ → ε → Option σ) (ok : σ → ε → Prop) : σ → σ → Prop
  | refl (s : σ) : Steps step ok s s
  | tail {s t u : σ} {e : ε} (hrun : Steps step ok s t) (hok : ok t e) (hstep : step t e = some u) :
      Steps step ok s u

variable {step : σ → ε → Option σ} {ok : σ → ε → Prop}

namespace Steps

/-- What every allowed step preserves holds along every run. -/
theorem invariant {inv : σ → Prop}
    (hpreserve : ∀ s e t, inv s → ok s e → step s e = some t → inv t) {s t : σ}
    (hrun : Steps step ok s t) (hs : inv s) : inv t := by
  induction hrun with
  | refl => exact hs
  | tail _ hok hstep ih => exact hpreserve _ _ _ ih hok hstep

theorem head {s t u : σ} {e : ε} (hok : ok s e) (hstep : step s e = some t)
    (hrun : Steps step ok t u) : Steps step ok s u := by
  induction hrun with
  | refl => exact .tail (.refl s) hok hstep
  | tail _ hok' hstep' ih => exact .tail ih hok' hstep'

end Steps

/-- The state a list of events leads to, if each of them is enabled in turn. -/
def exec (step : σ → ε → Option σ) : σ → List ε → Option σ
  | s, [] => some s
  | s, e :: es => (step s e).bind (exec step · es)

theorem exec_append (s : σ) (es es' : List ε) :
    exec step s (es ++ es') = (exec step s es).bind (exec step · es') := by
  induction es generalizing s with
  | nil => rfl
  | cons e es ih => simp only [List.cons_append, exec, ih, Option.bind_assoc]

/-- Every event of a list meets `ok` in the state it is taken in. -/
def Meets (step : σ → ε → Option σ) (ok : σ → ε → Prop) : σ → List ε → Prop
  | _, [] => True
  | s, e :: es => ok s e ∧ ∀ t ∈ step s e, Meets step ok t es

instance decidableMeets {step : σ → ε → Option σ} {ok : σ → ε → Prop}
    [hok : ∀ s e, Decidable (ok s e)] : (s : σ) → (es : List ε) → Decidable (Meets step ok s es)
  | _, [] => .isTrue trivial
  | s, e :: es =>
    have : ∀ t, Decidable (Meets step ok t es) := fun t => decidableMeets t es
    inferInstanceAs (Decidable (ok s e ∧ ∀ t ∈ step s e, Meets step ok t es))

/-- An executed list of events is a run. -/
theorem steps_of_exec (es : List ε) {s t : σ} (hexec : exec step s es = some t)
    (hmeets : Meets step ok s es) : Steps step ok s t := by
  induction es generalizing s with
  | nil =>
    obtain rfl : s = t := by simpa [exec] using hexec
    exact .refl s
  | cons e es ih =>
    obtain ⟨hok, hrest⟩ := hmeets
    simp only [exec, Option.bind_eq_some_iff] at hexec
    obtain ⟨u, hstep, hexec⟩ := hexec
    exact .head hok hstep (ih hexec (hrest u hstep))

theorem meets_of_forall (s : σ) (es : List ε) (h : ∀ e ∈ es, ∀ s, ok s e) : Meets step ok s es := by
  induction es generalizing s with
  | nil => trivial
  | cons e es ih =>
    exact ⟨h e List.mem_cons_self s, fun t _ => ih t fun e he => h e (List.mem_cons_of_mem _ he)⟩

theorem meets_true (s : σ) (es : List ε) : Meets step (fun _ _ => True) s es := by
  induction es generalizing s with
  | nil => trivial
  | cons e es ih => exact ⟨trivial, fun t _ => ih t⟩

end run

namespace run

variable {σ : Type*}

/-- A deterministic system goes from one state to another, and leaves the states of the path. -/
inductive Leads (next : σ → Option σ) : σ → List σ → σ → Prop
  | refl (s : σ) : Leads next s [] s
  | head {s t u : σ} {path : List σ} (hstep : next s = some t) (hrest : Leads next t path u) :
      Leads next s (s :: path) u

variable {next : σ → Option σ} {s t u : σ} {path path' : List σ}

namespace Leads

theorem single (hstep : next s = some t) : Leads next s [s] t := .head hstep (.refl t)

theorem trans (h : Leads next s path t) (h' : Leads next t path' u) : Leads next s (path ++ path') u := by
  induction h with
  | refl => exact h'
  | head hstep _ ih => exact .head hstep (ih h')

/-- A path to a state in which the system stops goes through every state it leads to. -/
theorem rest (h : Leads next s path u) (hend : next u = none) (h' : Leads next s path' t) :
    ∃ path'', Leads next t path'' u ∧ path = path' ++ path'' := by
  induction h' generalizing path with
  | refl => exact ⟨path, h, rfl⟩
  | head hstep' _ ih =>
    cases h with
    | refl => simp [hend] at hstep'
    | head hstep hrest =>
      obtain rfl := Option.some.inj (hstep.symm.trans hstep')
      obtain ⟨path'', hpath, rfl⟩ := ih hrest
      exact ⟨path'', hpath, rfl⟩

/-- What every step preserves holds where the system leads to. -/
theorem invariant {p : σ → Prop} (hstep : ∀ s t, p s → next s = some t → p t)
    (h : Leads next s path t) (hs : p s) : p t := by
  induction h with
  | refl => exact hs
  | head hnext _ ih => exact ih (hstep _ _ hs hnext)

end Leads

/-- The system leads to a goal when every other state steps to one of a smaller measure. -/
theorem leads_of_measure {inv goal : σ → Prop} (measure : σ → Nat)
    (hstep : ∀ s, inv s → ∃ t, next s = some t ∧ (goal t ∨ inv t ∧ measure t < measure s))
    (hs : inv s) : ∃ path t, Leads next s path t ∧ goal t ∧ ∀ x ∈ path, inv x := by
  induction hm : measure s using Nat.strongRecOn generalizing s with
  | ind m ih =>
    obtain ⟨t, hnext, hgoal | ⟨ht, hlt⟩⟩ := hstep s hs
    · exact ⟨[s], t, .single hnext, hgoal, by simpa using hs⟩
    · obtain ⟨path, u, hpath, hgoal, hinv⟩ := ih (measure t) (hm ▸ hlt) ht rfl
      refine ⟨s :: path, u, .head hnext hpath, hgoal, fun x hx => ?_⟩
      rcases List.mem_cons.mp hx with rfl | hx
      · exact hs
      · exact hinv x hx

end run

namespace run

universe u

variable {ε β : Type*} {α σ τ : Type u}

/-- A sequence of two fallible computations succeeds when both do. -/
theorem bind_eq_ok {x : Except ε α} {f : α → Except ε τ} {b : τ} :
    x >>= f = .ok b ↔ ∃ a, x = .ok a ∧ f a = .ok b := by
  cases x with
  | error e => simp [bind, Except.bind]
  | ok a => simp [bind, Except.bind]

/-- A computation that throws first under a condition succeeds when it is not met. -/
theorem throws_unless_eq_ok {c : Prop} [Decidable c] {e : ε} {f : α → Except ε τ} {x : Except ε τ}
    {b : τ} : (if c then throw e >>= f else x) = .ok b ↔ ¬c ∧ x = .ok b := by
  by_cases h : c
  · rw [if_pos h]
    exact ⟨fun hthrow => (by cases hthrow), fun hx => absurd h hx.1⟩
  · rw [if_neg h]
    exact ⟨fun hx => ⟨h, hx⟩, fun hx => hx.2⟩

/-- What every pass of a loop that does not fail preserves, the loop preserves. -/
theorem foldlM_invariant_of_mem {f : σ → β → Except ε σ} {p : σ → Prop} (xs : List β)
    (hf : ∀ s, ∀ x ∈ xs, ∀ t, p s → f s x = .ok t → p t) {s t : σ} (hs : p s)
    (h : xs.foldlM f s = .ok t) : p t := by
  induction xs generalizing s with
  | nil =>
    obtain rfl := Except.ok.inj h
    exact hs
  | cons x xs ih =>
    rw [List.foldlM_cons, bind_eq_ok] at h
    obtain ⟨u, hu, h⟩ := h
    exact ih (fun s x hx => hf s x (List.mem_cons_of_mem _ hx)) (hf s x List.mem_cons_self u hs hu) h

theorem foldlM_invariant {f : σ → β → Except ε σ} {p : σ → Prop}
    (hf : ∀ s x t, p s → f s x = .ok t → p t) (xs : List β) {s t : σ} (hs : p s)
    (h : xs.foldlM f s = .ok t) : p t :=
  foldlM_invariant_of_mem xs (fun s x _ => hf s x) hs h

/-- A loop does not fail when no pass of it does. -/
theorem foldlM_eq_ok {f : σ → β → Except ε σ} {g : σ → β → σ} {ready : σ → List β → Prop}
    (hf : ∀ s x xs, ready s (x :: xs) → f s x = .ok (g s x) ∧ ready (g s x) xs) (xs : List β)
    {s : σ} (hs : ready s xs) : xs.foldlM f s = .ok (xs.foldl g s) ∧ ready (xs.foldl g s) [] := by
  induction xs generalizing s with
  | nil => exact ⟨rfl, hs⟩
  | cons x xs ih =>
    obtain ⟨hx, hrest⟩ := hf s x xs hs
    rw [List.foldlM_cons, hx]
    exact ih hrest

/-- What holds after a loop held before it, or is due to an element. -/
theorem exists_of_foldl {σ β : Type*} {f : σ → β → σ} {q : σ → Prop} {p : β → Prop}
    (hf : ∀ s x, q (f s x) → p x ∨ q s) (xs : List β) {s : σ} (h : q (xs.foldl f s)) :
    (∃ x ∈ xs, p x) ∨ q s := by
  induction xs generalizing s with
  | nil => exact .inr h
  | cons x xs ih =>
    obtain ⟨y, hy, hp⟩ | h := ih h
    · exact .inl ⟨y, List.mem_cons_of_mem _ hy, hp⟩
    · exact (hf s x h).imp_left fun hp => ⟨x, List.mem_cons_self, hp⟩

/-- What a loop that does not fail gives, it gives for an element. -/
theorem exists_of_mem_mapM {β : Type u} {f : α → Option β} (xs : List α) {ys : List β}
    (h : xs.mapM f = some ys) : ∀ y ∈ ys, ∃ x ∈ xs, f x = some y := by
  induction xs generalizing ys with
  | nil =>
    obtain rfl := Option.some.inj h
    exact fun y hy => (by cases hy)
  | cons x xs ih =>
    rw [List.mapM_cons] at h
    obtain ⟨y, hy, h⟩ := Option.bind_eq_some_iff.mp h
    obtain ⟨ys', hys, h⟩ := Option.bind_eq_some_iff.mp h
    obtain rfl := Option.some.inj h
    rintro z (_ | ⟨_, hz⟩)
    · exact ⟨x, List.mem_cons_self, hy⟩
    · obtain ⟨x', hx', hz⟩ := ih hys z hz
      exact ⟨x', List.mem_cons_of_mem _ hx', hz⟩

end run
