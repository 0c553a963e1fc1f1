namespace run

/-- A program that stops at each action on its surroundings and goes on with their reply. -/
inductive Routine (A : Type) (R : A → Type) (ε α : Type) : Type
  | done (a : α)
  | fail (e : ε)
  | act (a : A) (k : R a → Routine A R ε α)

namespace Routine

variable {A : Type} {R : A → Type} {ε α β σ : Type}

def bind (p : Routine A R ε α) (f : α → Routine A R ε β) : Routine A R ε β :=
  match p with
  | done a => f a
  | fail e => fail e
  | act a k => act a fun r => (k r).bind f

instance : Monad (Routine A R ε) where
  pure := done
  bind := bind

/-- A single action, with its reply as the result. -/
def perform (a : A) : Routine A R ε (R a) :=
  act a done

/-- A program whose failure is handled. -/
def attempt (p : Routine A R ε α) (handle : ε → Routine A R ε α) : Routine A R ε α :=
  match p with
  | done a => done a
  | fail e => handle e
  | act a k => act a fun r => (k r).attempt handle

@[simp] theorem pure_eq (a : α) : (pure a : Routine A R ε α) = done a := rfl

@[simp] theorem done_bind (a : α) (f : α → Routine A R ε β) : (done a >>= f) = f a := rfl

@[simp] theorem fail_bind (e : ε) (f : α → Routine A R ε β) : (fail e >>= f) = fail e := rfl

@[simp] theorem act_bind (a : A) (k : R a → Routine A R ε α) (f : α → Routine A R ε β) :
    (act a k >>= f) = act a fun r => k r >>= f := rfl

@[simp] theorem perform_bind (a : A) (f : R a → Routine A R ε β) :
    (perform a >>= f) = act a f := rfl

/-- Every action a program may come to is one of `P`. -/
def Only (P : A → Prop) : Routine A R ε α → Prop
  | done _ => True
  | fail _ => True
  | act a k => P a ∧ ∀ r, (k r).Only P

theorem Only.bind {P : A → Prop} {p : Routine A R ε α} {f : α → Routine A R ε β} (hp : p.Only P)
    (hf : ∀ a, (f a).Only P) : (p >>= f).Only P := by
  induction p with
  | done a => exact hf a
  | fail e => trivial
  | act a k ih => exact ⟨hp.1, fun r => ih r (hp.2 r)⟩

theorem Only.attempt {P : A → Prop} {p : Routine A R ε α} {handle : ε → Routine A R ε α}
    (hp : p.Only P) (hhandle : ∀ e, (handle e).Only P) : (p.attempt handle).Only P := by
  induction p with
  | done a => trivial
  | fail e => exact hhandle e
  | act a k ih => exact ⟨hp.1, fun r => ih r (hp.2 r)⟩

theorem Only.mono {P Q : A → Prop} (h : ∀ a, P a → Q a) {p : Routine A R ε α} (hp : p.Only P) :
    p.Only Q := by
  induction p with
  | done a => trivial
  | fail e => trivial
  | act a k ih => exact ⟨h a hp.1, fun r => ih r (hp.2 r)⟩

/-- Every result a program may end with is one of `Q`. -/
def Yields (Q : α → Prop) : Routine A R ε α → Prop
  | done a => Q a
  | fail _ => True
  | act _ k => ∀ r, (k r).Yields Q

theorem Yields.bind {Q : α → Prop} {S : β → Prop} {p : Routine A R ε α} {f : α → Routine A R ε β}
    (hp : p.Yields Q) (hf : ∀ a, Q a → (f a).Yields S) : (p >>= f).Yields S := by
  induction p with
  | done a => exact hf a hp
  | fail e => trivial
  | act a k ih => exact fun r => ih r (hp r)

theorem yields_true (p : Routine A R ε α) : p.Yields fun _ => True := by
  induction p with
  | done a => trivial
  | fail e => trivial
  | act a k ih => exact ih

end Routine

/-- How surroundings take part in a program: what an action does to their state, what others
may do to it while the program waits at an action, what has to hold at every such point, and
what every action taken has to meet. -/
structure Surroundings (A : Type) (R : A → Type) (σ : Type) where
  step : σ → (a : A) → R a → σ → Prop
  rely : A → σ → σ → Prop
  wait : A → σ → Prop
  meet : σ → (a : A) → R a → Prop

namespace Surroundings

variable {A : Type} {R : A → Type} {ε α β σ : Type} {E : Surroundings A R σ}

/-- Wherever the program is, its surroundings are as required, and it ends as stated. -/
def Ensures (E : Surroundings A R σ) (post : α → σ → Prop) (failed : ε → σ → Prop) :
    Routine A R ε α → σ → Prop
  | .done a, s => post a s
  | .fail e, s => failed e s
  | .act a k, s => ∀ t, E.rely a s t → E.wait a t ∧
      ∀ r u, E.step t a r u → E.meet t a r ∧ Ensures E post failed (k r) u

variable {post : α → σ → Prop} {failed : ε → σ → Prop}

@[simp] theorem ensures_done (a : α) (s : σ) :
    E.Ensures post failed (.done a) s ↔ post a s := Iff.rfl

@[simp] theorem ensures_fail (e : ε) (s : σ) :
    E.Ensures post failed (.fail e) s ↔ failed e s := Iff.rfl

theorem ensures_act {a : A} {k : R a → Routine A R ε α} {s : σ} :
    E.Ensures post failed (.act a k) s ↔ ∀ t, E.rely a s t → E.wait a t ∧
      ∀ r u, E.step t a r u → E.meet t a r ∧ E.Ensures post failed (k r) u := Iff.rfl

theorem Ensures.mono {post' : α → σ → Prop} {failed' : ε → σ → Prop}
    (hpost : ∀ a s, post a s → post' a s) (hfailed : ∀ e s, failed e s → failed' e s)
    {p : Routine A R ε α} {s : σ} (h : E.Ensures post failed p s) : E.Ensures post' failed' p s := by
  induction p generalizing s with
  | done a => exact hpost a s h
  | fail e => exact hfailed e s h
  | act a k ih =>
    intro t ht
    obtain ⟨hwait, hstep⟩ := h t ht
    exact ⟨hwait, fun r u hu => ⟨(hstep r u hu).1, ih r (hstep r u hu).2⟩⟩

/-- What a program ensures holds of each of the results it may end with. -/
theorem Ensures.yields {Q : α → Prop} {p : Routine A R ε α} {s : σ} (hp : p.Yields Q)
    (h : E.Ensures post failed p s) : E.Ensures (fun a t => post a t ∧ Q a) failed p s := by
  induction p generalizing s with
  | done a => exact ⟨h, hp⟩
  | fail e => exact h
  | act a k ih =>
    intro t ht
    obtain ⟨hwait, hstep⟩ := h t ht
    exact ⟨hwait, fun r u hu => ⟨(hstep r u hu).1, ih r (hp r) (hstep r u hu).2⟩⟩

/-- The rule for one program after another. -/
theorem Ensures.bind {m : α → σ → Prop} {post : β → σ → Prop} {p : Routine A R ε α}
    {f : α → Routine A R ε β} {s : σ} (hp : E.Ensures m failed p s)
    (hf : ∀ a t, m a t → E.Ensures post failed (f a) t) :
    E.Ensures post failed (p >>= f) s := by
  induction p generalizing s with
  | done a => exact hf a s hp
  | fail e => exact hp
  | act a k ih =>
    intro t ht
    obtain ⟨hwait, hstep⟩ := hp t ht
    exact ⟨hwait, fun r u hu => ⟨(hstep r u hu).1, ih r (hstep r u hu).2⟩⟩

/-- The rule for a program whose failure is handled. -/
theorem Ensures.attempt {m : ε → σ → Prop} {p : Routine A R ε α} {handle : ε → Routine A R ε α}
    {s : σ} (hp : E.Ensures post m p s)
    (hhandle : ∀ e t, m e t → E.Ensures post failed (handle e) t) :
    E.Ensures post failed (p.attempt handle) s := by
  induction p generalizing s with
  | done a => exact hp
  | fail e => exact hhandle e s hp
  | act a k ih =>
    intro t ht
    obtain ⟨hwait, hstep⟩ := hp t ht
    exact ⟨hwait, fun r u hu => ⟨(hstep r u hu).1, ih r (hstep r u hu).2⟩⟩

/-- A program of actions that all keep an invariant keeps it. -/
theorem ensures_of_only {P : A → Prop} {inv : σ → Prop} {p : Routine A R ε α} (hp : p.Only P)
    (hrely : ∀ a s t, P a → inv s → E.rely a s t → inv t ∧ E.wait a t)
    (hstep : ∀ s a r t, P a → inv s → E.step s a r t → E.meet s a r ∧ inv t)
    {s : σ} (hs : inv s) : E.Ensures (fun _ => inv) (fun _ => inv) p s := by
  induction p generalizing s with
  | done a => exact hs
  | fail e => exact hs
  | act a k ih =>
    intro t ht
    obtain ⟨hinv, hwait⟩ := hrely a s t hp.1 hs ht
    refine ⟨hwait, fun r u hu => ?_⟩
    obtain ⟨hmeet, hinv⟩ := hstep t a r u hp.1 hinv hu
    exact ⟨hmeet, ih r (hp.2 r) hinv⟩

/-- What others do while a program waits does not take from it what it ensures. -/
theorem Ensures.rely {a : A} {k : R a → Routine A R ε α} {s t : σ}
    (htrans : ∀ u, E.rely a t u → E.rely a s u) (h : E.Ensures post failed (.act a k) s) :
    E.Ensures post failed (.act a k) t :=
  fun u hu => h u (htrans u hu)

/-- Nor from one that asks nothing of its end. -/
theorem Ensures.relies {p : Routine A R ε α} {s t : σ} (htrans : ∀ a u, E.rely a t u → E.rely a s u)
    (h : E.Ensures (fun _ _ => True) (fun _ _ => True) p s) :
    E.Ensures (fun _ _ => True) (fun _ _ => True) p t := by
  cases p with
  | done => trivial
  | fail => trivial
  | act a k => exact Ensures.rely (htrans a) h

end Surroundings

namespace Routine

variable {A : Type} {R : A → Type} {ε α β σ : Type}

/-- The run of a program in surroundings that answer each action by a function. -/
def exec (answer : σ → (a : A) → R a × σ) : Routine A R ε α → σ → Except ε α × σ
  | done a, s => (.ok a, s)
  | fail e, s => (.error e, s)
  | act a k, s => (k (answer s a).1).exec answer (answer s a).2

variable {answer : σ → (a : A) → R a × σ}

theorem exec_bind (p : Routine A R ε α) (f : α → Routine A R ε β) (s : σ) :
    (p >>= f).exec answer s = match p.exec answer s with
      | (.ok a, t) => (f a).exec answer t
      | (.error e, t) => (.error e, t) := by
  induction p generalizing s with
  | done a => rfl
  | fail e => rfl
  | act a k ih => exact ih _ _

theorem exec_attempt (p : Routine A R ε α) (handle : ε → Routine A R ε α) (s : σ) :
    (p.attempt handle).exec answer s = match p.exec answer s with
      | (.ok a, t) => (.ok a, t)
      | (.error e, t) => (handle e).exec answer t := by
  induction p generalizing s with
  | done a => rfl
  | fail e => rfl
  | act a k ih => exact ih _ _

end Routine

/-- Two surroundings that answer the actions of a program, when their states are alike, and a
condition on the second that does not come back once it is lost. -/
structure Pairing (A : Type) (R : A → Type) (σ : Type) where
  left : σ → (a : A) → R a × σ
  right : σ → (a : A) → R a × σ
  alike : σ → σ → Prop
  kept : σ → Prop
  kept_of : ∀ s a, kept (right s a).2 → kept s

namespace Pairing

variable {A : Type} {R : A → Type} {ε α α' β β' σ : Type} {E : Pairing A R σ}

/-- Two ends that are alike: both with results that go together, or both failed. -/
def Ends (E : Pairing A R σ) (T : α → β → σ → Prop) : Except ε α × σ → Except ε β × σ → Prop
  | (.ok a, s), (.ok b, t) => T a b t ∧ E.alike s t
  | (.error _, s), (.error _, t) => E.alike s t
  | _, _ => False

/-- From states that are alike, two programs come to ends that are alike, as long as the second
keeps the condition. -/
def Agree (E : Pairing A R σ) (P : σ → Prop) (T : α → β → σ → Prop) (p : Routine A R ε α)
    (q : Routine A R ε β) : Prop :=
  ∀ s t, E.alike s t → P t → E.kept (q.exec E.right t).2 →
    E.Ends T (p.exec E.left s) (q.exec E.right t)

variable {P : σ → Prop} {T : α → β → σ → Prop} {p : Routine A R ε α} {q : Routine A R ε β}

theorem kept_exec (q : Routine A R ε β) {t : σ} (h : E.kept (q.exec E.right t).2) : E.kept t := by
  induction q generalizing t with
  | done b => exact h
  | fail e => exact h
  | act a k ih => exact E.kept_of t a (ih _ h)

theorem agree_done {a : α} {b : β} (h : ∀ t, P t → T a b t) :
    E.Agree P T (.done a : Routine A R ε α) (.done b) :=
  fun _ t hst ht _ => ⟨h t ht, hst⟩

theorem agree_fail (e e' : ε) :
    E.Agree P T (.fail e : Routine A R ε α) (.fail e' : Routine A R ε β) :=
  fun _ _ hst _ _ => hst

/-- Both programs take an action, each its own. -/
theorem agree_act {a b : A} {k : R a → Routine A R ε α} {l : R b → Routine A R ε β}
    (h : ∀ s t, E.alike s t → P t → E.kept (E.right t b).2 →
      E.alike (E.left s a).2 (E.right t b).2 ∧ ∃ Q, Q (E.right t b).2 ∧
        E.Agree Q T (k (E.left s a).1) (l (E.right t b).1)) :
    E.Agree P T (.act a k) (.act b l) := by
  intro s t hst ht hkept
  obtain ⟨hnext, Q, hQ, hagree⟩ := h s t hst ht (kept_exec _ hkept)
  exact hagree _ _ hnext hQ hkept

theorem Agree.mono {P' : σ → Prop} {T' : α → β → σ → Prop} (hP : ∀ t, P' t → P t)
    (hT : ∀ a b t, T a b t → T' a b t) (h : E.Agree P T p q) : E.Agree P' T' p q := by
  intro s t hst ht hkept
  have hends := h s t hst (hP t ht) hkept
  revert hends
  generalize p.exec E.left s = x
  generalize q.exec E.right t = y
  match x, y with
  | (.ok a, s), (.ok b, t) => exact fun h => ⟨hT a b t h.1, h.2⟩
  | (.error _, s), (.error _, t) => exact fun h => h
  | (.ok _, _), (.error _, _) => exact fun h => h
  | (.error _, _), (.ok _, _) => exact fun h => h

/-- A fact of what came before is one of what follows. -/
theorem agree_of_fact {c : Prop} (h : c → E.Agree P T p q) : E.Agree (fun t => c ∧ P t) T p q :=
  fun s t hst ht hkept => h ht.1 s t hst ht.2 hkept

theorem Agree.bind {m : α → β → σ → Prop} {T : α' → β' → σ → Prop} {f : α → Routine A R ε α'}
    {g : β → Routine A R ε β'} (h : E.Agree P m p q)
    (hf : ∀ a b, E.Agree (m a b) T (f a) (g b)) : E.Agree P T (p >>= f) (q >>= g) := by
  intro s t hst ht hkept
  rw [Routine.exec_bind] at hkept ⊢
  rw [Routine.exec_bind]
  have hfirst : E.kept (q.exec E.right t).2 := by
    revert hkept
    generalize q.exec E.right t = y
    match y with
    | (.ok b, t) => exact fun h => kept_exec (g b) h
    | (.error e, t) => exact fun h => h
  have hends := h s t hst ht hfirst
  revert hends hkept
  generalize p.exec E.left s = x
  generalize q.exec E.right t = y
  match x, y with
  | (.ok a, s), (.ok b, t) => exact fun hkept h => hf a b s t h.2 h.1 hkept
  | (.error _, s), (.error _, t) => exact fun _ h => h
  | (.ok _, _), (.error _, _) => exact fun _ h => h.elim
  | (.error _, _), (.ok _, _) => exact fun _ h => h.elim

theorem Agree.attempt {f : ε → Routine A R ε α} {g : ε → Routine A R ε β} (h : E.Agree P T p q)
    (hf : ∀ e e', E.Agree (fun _ => True) T (f e) (g e')) :
    E.Agree P T (p.attempt f) (q.attempt g) := by
  intro s t hst ht hkept
  rw [Routine.exec_attempt] at hkept ⊢
  rw [Routine.exec_attempt]
  have hfirst : E.kept (q.exec E.right t).2 := by
    revert hkept
    generalize q.exec E.right t = y
    match y with
    | (.ok b, t) => exact fun h => h
    | (.error e, t) => exact fun h => kept_exec (g e) h
  have hends := h s t hst ht hfirst
  revert hends hkept
  generalize p.exec E.left s = x
  generalize q.exec E.right t = y
  match x, y with
  | (.ok a, s), (.ok b, t) => exact fun _ h => h
  | (.error e, s), (.error e', t) => exact fun hkept h => hf e e' s t h trivial hkept
  | (.ok _, _), (.error _, _) => exact fun _ h => h.elim
  | (.error _, _), (.ok _, _) => exact fun _ h => h.elim

end Pairing

end run
