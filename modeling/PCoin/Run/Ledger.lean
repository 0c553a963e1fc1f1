import Mathlib.Data.List.Basic

/-! Programs over one ledger file, whose reads may fail. -/

namespace run

/-- A program that loads and saves a ledger, and does things that others see. -/
inductive Prog (α ο : Type*)
  | done
  | load (next : α → Prog α ο)
  | save (a : α) (next : Prog α ο)
  | emit (o : ο) (next : Prog α ο)

/-- What has become of a run: the file, whether a load of it has failed although it was there, what
was saved, and what was seen. -/
structure Trace (α ο : Type*) where
  file : Option α
  blind : Bool := false
  saved : List α := []
  seen : List ο := []

/-- Nothing was saved or seen since. -/
def Trace.Same {α ο : Type*} (t t₀ : Trace α ο) : Prop :=
  t.file = t₀.file ∧ t.saved = t₀.saved ∧ t.seen = t₀.seen

variable {α ο : Type*} {empty : α} {file : Option α} {reads : List Bool} {t : Trace α ο} {p : Prog α ο}

namespace Prog

/-- A run from a state on. The loads of it work as `reads` says, and those after them do; one that
does not work, or for which there is no file, gives `empty`. -/
def exec (empty : α) : Prog α ο → List Bool → Trace α ο → Trace α ο
  | .done, _, t => t
  | .load next, reads, t =>
    if reads.headD true then exec empty (next (t.file.getD empty)) reads.tail t
    else exec empty (next empty) reads.tail { t with blind := t.blind || t.file.isSome }
  | .save a next, reads, t => exec empty next reads { t with file := some a, saved := t.saved ++ [a] }
  | .emit o next, reads, t => exec empty next reads { t with seen := t.seen ++ [o] }

/-- A program that neither saves nor is seen, whatever it loads. -/
def Silent : Prog α ο → Prop
  | .done => True
  | .load next => ∀ a, (next a).Silent
  | .save _ _ | .emit _ _ => False

/-- A program without a load. -/
def Loaded : Prog α ο → Prop
  | .done => True
  | .load _ => False
  | .save _ next | .emit _ next => next.Loaded

/-- A program that saves what a relation leads to from what is in the file. -/
def Keeps (R : α → α → Prop) (empty : α) : Option α → Prog α ο → Prop
  | _, .done => True
  | file, .load next => (next (file.getD empty)).Keeps R empty file
  | file, .save a next => (∀ b ∈ file, R b a) ∧ next.Keeps R empty (some a)
  | file, .emit _ next => next.Keeps R empty file

theorem Silent.exec (h : p.Silent) (reads : List Bool) (t : Trace α ο) :
    (p.exec empty reads t).Same t := by
  induction p generalizing reads t with
  | done => exact ⟨rfl, rfl, rfl⟩
  | load next ih =>
    unfold Prog.exec
    split
    · exact ih _ (h _) _ _
    · exact ih _ (h _) _ _
  | save a next => exact h.elim
  | emit o next => exact h.elim

theorem Loaded.exec (h : p.Loaded) (empty : α) (reads : List Bool) (t : Trace α ο) :
    (p.exec empty reads t).blind = t.blind := by
  induction p generalizing reads t with
  | done => rfl
  | load next => exact h.elim
  | save a next ih => exact ih h _ _
  | emit o next ih => exact ih h _ _

/-- A program whose only load comes first is blind when that fails. -/
theorem Loaded.fails {next : α → Prog α ο} (h : ∀ a, (next a).Loaded) (ht : t.blind = false)
    (hblind : ((load next).exec empty reads t).blind = true) : reads.headD true = false := by
  refine Bool.eq_false_iff.mpr fun hreads => ?_
  rw [Prog.exec, if_pos hreads, (h _).exec, ht] at hblind
  cases hblind

/-- A first load that fails, of a program that is silent then. -/
theorem Silent.exec_load {next : α → Prog α ο} (h : (next empty).Silent)
    (hreads : reads.headD true = false) (t : Trace α ο) :
    ((load next).exec empty reads t).Same t := by
  rw [Prog.exec, if_neg (by rw [hreads]; exact Bool.false_ne_true)]
  exact h.exec _ _

/-- A load that has failed stays so. -/
theorem blind_exec (empty : α) (p : Prog α ο) (reads : List Bool) (hblind : t.blind = true) :
    (p.exec empty reads t).blind = true := by
  induction p generalizing reads t with
  | done => exact hblind
  | load next ih =>
    unfold exec
    split
    · exact ih _ _ hblind
    · exact ih _ _ (by rw [hblind, Bool.true_or])
  | save a next ih => exact ih _ hblind
  | emit o next ih => exact ih _ hblind

/-- The loads of a run work. -/
def Works (reads : List Bool) : Prop := ∀ works ∈ reads, works = true

instance (reads : List Bool) : Decidable (Works reads) :=
  inferInstanceAs (Decidable (∀ works ∈ reads, works = true))

/-- A run whose loads work is not blind. -/
theorem Works.exec (h : Works reads) (empty : α) (p : Prog α ο) (t : Trace α ο) :
    (p.exec empty reads t).blind = t.blind := by
  induction p generalizing reads t with
  | done => rfl
  | load next ih =>
    have hhead : reads.headD true = true := by
      cases reads with
      | nil => rfl
      | cons works reads => exact h works List.mem_cons_self
    rw [Prog.exec, if_pos hhead]
    exact ih _ (fun works hworks => h works (List.mem_of_mem_tail hworks)) t
  | save a next ih => exact ih h _
  | emit o next ih => exact ih h _

/-- The file changes by what is saved. -/
theorem exec_saved (empty : α) (p : Prog α ο) (reads : List Bool) (t : Trace α ο) :
    ∃ new, (p.exec empty reads t).saved = t.saved ++ new ∧
      (new = [] → (p.exec empty reads t).file = t.file) := by
  induction p generalizing reads t with
  | done => exact ⟨[], (List.append_nil _).symm, fun _ => rfl⟩
  | load next ih =>
    unfold exec
    split
    · exact ih _ _ _
    · exact ih _ _ _
  | save a next ih =>
    obtain ⟨new, hnew, -⟩ := ih reads { t with file := some a, saved := t.saved ++ [a] }
    exact ⟨a :: new, by rw [Prog.exec, hnew, List.append_assoc]; rfl, fun h => (by cases h)⟩
  | emit o next ih => exact ih reads { t with seen := t.seen ++ [o] }

variable {R : α → α → Prop}

/-- No file is as an empty one. -/
theorem Keeps.of_none (h : p.Keeps R empty (some empty)) : p.Keeps R empty none := by
  induction p with
  | done => trivial
  | load next ih => exact ih _ h
  | save a next => exact ⟨fun b hb => (by cases hb), h.2⟩
  | emit o next ih => exact ih h

/-- A load, of a program that keeps what it loads. -/
theorem Keeps.load {next : α → Prog α ο}
    (h : ∀ a, a ∈ file ∨ a = empty → (next a).Keeps R empty (some a)) :
    (Prog.load next).Keeps R empty file := by
  cases file with
  | none => exact (h empty (.inr rfl)).of_none
  | some a => exact h a (.inl rfl)

/-- Everything saved is in the file still, in the sense of a relation. -/
def Holds (R : α → α → Prop) (history : List α) (t : Trace α ο) : Prop :=
  ∀ a, a ∈ history ∨ a ∈ t.saved → ∃ b ∈ t.file, R a b

variable {history : List α}

/-- A run no load of which fails leaves everything in the file. -/
theorem Keeps.exec (hrefl : ∀ a, R a a) (htrans : ∀ {a b c}, R a b → R b c → R a c)
    (h : p.Keeps R empty t.file) (hworks : (p.exec empty reads t).blind = false) (ht : Holds R history t) :
    Holds R history (p.exec empty reads t) := by
  induction p generalizing reads t with
  | done => exact ht
  | load next ih =>
    unfold Prog.exec at hworks ⊢
    split at hworks
    · rename_i hreads
      rw [if_pos hreads]
      exact ih _ h hworks ht
    · rename_i hreads
      rw [if_neg hreads]
      -- the load was of no file
      have hfile : t.file = none := by
        by_contra hfile
        have hblind := blind_exec (t := { t with blind := t.blind || t.file.isSome }) empty
          (next empty) reads.tail (by rw [Option.isSome_iff_ne_none.mpr hfile, Bool.or_true])
        rw [hblind] at hworks
        cases hworks
      refine ih _ ?_ hworks ht
      rw [Keeps, hfile] at h
      rw [hfile]
      exact h
  | save a next ih =>
    refine ih (t := { t with file := some a, saved := t.saved ++ [a] }) h.2 hworks fun x hx => ?_
    rw [List.mem_append, ← or_assoc] at hx
    obtain hx | hx := hx
    · obtain ⟨b, hb, hR⟩ := ht x hx
      exact ⟨a, rfl, htrans hR (h.1 b hb)⟩
    · exact ⟨a, rfl, List.mem_singleton.mp hx ▸ hrefl a⟩
  | emit o next ih => exact ih (t := { t with seen := t.seen ++ [o] }) h hworks ht

end Prog

/-- A run has written nothing, and done nothing that is bad for what the file holds. -/
structure Trace.Harmless (bad : α → ο → Prop) (t : Trace α ο) : Prop where
  saved : t.saved = []
  seen : ∀ a ∈ t.file, ∀ o ∈ t.seen, ¬bad a o

/-- A ledger file over many runs: all that was ever saved, and the runs a load of which has failed. -/
structure Files (α ο : Type*) where
  file : Option α := none
  history : List α := []
  blinds : List (Trace α ο) := []

namespace Files

variable {f : Files α ο} {R : α → α → Prop} {bad : α → ο → Prop}

/-- A run of a program from the file. -/
def trace (empty : α) (f : Files α ο) (p : Prog α ο) (reads : List Bool) : Trace α ο :=
  p.exec empty reads { file := f.file }

/-- The file after a run of a program. -/
def after (empty : α) (f : Files α ο) (p : Prog α ο) (reads : List Bool) : Files α ο :=
  let t := f.trace empty p reads
  { file := t.file
    history := f.history ++ t.saved
    blinds := if t.blind then f.blinds ++ [t] else f.blinds }

/-- Nothing that was saved is lost, and a run that could not read the file was harmless. -/
structure Sound (R : α → α → Prop) (bad : α → ο → Prop) (f : Files α ο) : Prop where
  history : ∀ a ∈ f.history, ∃ b ∈ f.file, R a b
  blinds : ∀ t ∈ f.blinds, t.Harmless bad

theorem Sound.init : Sound R bad {} :=
  ⟨fun a ha => (by cases ha), fun t ht => (by cases ht)⟩

/-- The rule of a run: it keeps what it loads, and is harmless when a load has failed. -/
theorem Sound.after (hrefl : ∀ a, R a a) (htrans : ∀ {a b c}, R a b → R b c → R a c)
    (h : Sound R bad f) (hkeeps : p.Keeps R empty f.file)
    (hok : Prog.Works reads ∨
      ((f.trace empty p reads).blind = true → (f.trace empty p reads).Harmless bad)) :
    Sound R bad (f.after empty p reads) := by
  have hstart : Prog.Holds R f.history ({ file := f.file } : Trace α ο) := by
    rintro a (ha | ha)
    · exact h.history a ha
    · cases ha
  by_cases hblind : (f.trace empty p reads).blind = true
  · have hharmless := hok.elim (fun h => absurd (hblind.symm.trans (h.exec empty p _)) Bool.noConfusion)
      fun h => h hblind
    obtain ⟨new, hnew, hfile⟩ := Prog.exec_saved empty p reads { file := f.file }
    have hsame : (f.trace empty p reads).file = f.file := by
      refine hfile ?_
      have hsaved : (f.trace empty p reads).saved = [] := hharmless.saved
      rw [Files.trace, hnew] at hsaved
      exact hsaved
    refine ⟨fun a ha => ?_, fun t ht => ?_⟩
    · obtain ha | ha := List.mem_append.mp ha
      · show ∃ b ∈ (f.trace empty p reads).file, R a b
        rw [hsame]
        exact h.history a ha
      · rw [hharmless.saved] at ha
        cases ha
    · simp only [Files.after, hblind, if_true] at ht
      obtain ht | ht := List.mem_append.mp ht
      · exact h.blinds t ht
      · rw [List.mem_singleton.mp ht]
        exact hharmless
  · refine ⟨fun a ha => ?_, fun t ht => ?_⟩
    · exact hkeeps.exec hrefl htrans (Bool.eq_false_iff.mpr hblind) hstart a (List.mem_append.mp ha)
    · rw [Files.after, if_neg hblind] at ht
      exact h.blinds t ht

end Files

/-- A run that saves nothing and is not seen is harmless. -/
theorem Trace.Same.harmless {bad : α → ο → Prop} (h : t.Same { file := file }) : t.Harmless bad where
  saved := h.2.1
  seen a _ o ho := by
    rw [h.2.2] at ho
    cases ho

end run
