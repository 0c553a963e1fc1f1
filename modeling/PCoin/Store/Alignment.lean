import PCoin.Store.Sqlite

namespace pcoin.store

/-- A request the child has answered and whose sentinel is still to be read. -/
structure Flight where
  id : Nat
  reply : Reply
  total : Nat

namespace Flight

def lines (f : Flight) : List Text := f.reply.rows ++ [sentinelLine f.total]

/-- `total_changes()` grows from `base` by each request's own changes. -/
def Chained : Nat → List Flight → Nat → Prop
  | base, [], last => base = last
  | base, f :: fs, last => f.total = base + f.reply.changes ∧ Chained f.total fs last

theorem Chained.append {base last : Nat} {fs : List Flight} {f : Flight}
    (h : Chained base fs last) (hf : f.total = last + f.reply.changes) :
    Chained base (fs ++ [f]) f.total := by
  induction fs generalizing base with
  | nil =>
    obtain rfl : base = last := h
    exact ⟨hf, rfl⟩
  | cons g fs ih => exact ⟨h.1, ih h.2⟩

end Flight

/-- What a promise may be settled with: its own rows and change count, or its own
error. Timers, the death of the child and a store that is down are told apart by
their source. -/
def Own (replies : List (Nat × Reply)) (id : Nat) : Outcome → Prop
  | .resolved rows _ changed =>
    ∃ reply, (id, reply) ∈ replies ∧ rows = reply.rows ∧ changed = some (reply.changes : Int)
  | .rejected .stderr message =>
    ∃ reply, (id, reply) ∈ replies ∧ trim reply.err ≠ [] ∧ message = firstLine (trim reply.err)
  | .rejected _ _ => True

def Sqlite.Answered (s : Sqlite) : Prop := ∀ id outcome, (id, outcome) ∈ s.settled →
  Own s.replies id outcome

/-- The characters of stderr that belong to request `id` and are still unread. -/
def unread (stderr : List (Nat × Char)) (id : Nat) : Text :=
  (stderr.filter (·.1 = id)).map Prod.snd

/-- Of the errors of the answered requests, the first one's is partly read and the
others' are unread. -/
def ErrorsOf (errBuf : Text) (stderr : List (Nat × Char)) : List Flight → Prop
  | [] => errBuf = []
  | f :: flights => errBuf ++ unread stderr f.id = f.reply.err ∧
      ∀ g ∈ flights, unread stderr g.id = g.reply.err

/-- The aligned states: the queue is the answered requests `flights` followed by the
unanswered ones, the unread text is what the answered ones still have to print, and
every error character is unread or belongs to the first of them. -/
structure Aligned (s : Sqlite) (flights : List Flight) (ahead : List Text) : Prop where
  queue : s.q.map Waiter.id = flights.map Flight.id ++ s.stdin.map Prod.fst
  lines : (flights.map Flight.lines).flatten = s.rows ++ ahead
  rows : ∀ row ∈ s.rows, sentinel.isPrefixOf row = false
  honest : ∀ f ∈ flights, ∀ row ∈ f.reply.rows, sentinel.isPrefixOf row = false
  totals : ∃ base : Nat, s.lastTotal = some (base : Int) ∧ Flight.Chained base flights s.total
  distinct : (s.q.map Waiter.id).Nodup
  fresh : ∀ w ∈ s.q, w.id < s.nextId
  tags : ∀ x ∈ s.stderr, x.1 ∈ flights.map Flight.id
  errors : ErrorsOf s.errBuf s.stderr flights
  logged : ∀ f ∈ flights, (f.id, f.reply) ∈ s.replies
  answered : s.Answered

theorem Flight.newline_notMem {f : Flight} {line : Text} (h : line ∈ f.lines) : '\n' ∉ line := by
  rcases List.mem_append.mp h with h | h
  · exact f.reply.lines line h
  · rw [List.mem_singleton.mp h]
    exact newline_notMem_sentinelLine f.total

/-- The first sentinel line ahead is the one of the first answered request, and
the rows before it are that request's rows. -/
theorem first_sentinel {rows rows' : List Text} {line line' : Text} {back back' : List Text}
    (hrows : ∀ row ∈ rows, sentinel.isPrefixOf row = false)
    (hrows' : ∀ row ∈ rows', sentinel.isPrefixOf row = false)
    (hline : sentinel.isPrefixOf line = true) (hline' : sentinel.isPrefixOf line' = true)
    (h : rows ++ line :: back = rows' ++ line' :: back') :
    rows = rows' ∧ line = line' ∧ back = back' := by
  induction rows generalizing rows' with
  | nil =>
    cases rows' with
    | nil => simpa using h
    | cons row rows' =>
      simp only [List.nil_append, List.cons_append, List.cons.injEq] at h
      have := hrows' row (by simp)
      simp [← h.1, hline] at this
  | cons row rows ih =>
    cases rows' with
    | nil =>
      simp only [List.nil_append, List.cons_append, List.cons.injEq] at h
      have := hrows row (by simp)
      simp [h.1, hline'] at this
    | cons row' rows' =>
      simp only [List.cons_append, List.cons.injEq] at h
      obtain ⟨rfl, hrest⟩ := ih (fun r hr => hrows r (List.mem_cons_of_mem _ hr))
        (fun r hr => hrows' r (List.mem_cons_of_mem _ hr)) h.2
      exact ⟨by rw [h.1], hrest⟩

/-- One line of output keeps the alignment, as long as a request whose sentinel it
is has no unread error left. -/
theorem Aligned.onLine {s : Sqlite} {flights : List Flight} {line : Text} {ahead : List Text}
    (h : Aligned s flights (line :: ahead))
    (hquiet : sentinel.isPrefixOf line = true → ∀ x ∈ s.stderr, ∀ w ∈ s.q.head?, x.1 ≠ w.id) :
    ∃ flights', Aligned (s.onLine line) flights' ahead := by
  cases hsentinel : sentinel.isPrefixOf line with
  | false =>
    refine ⟨flights, ?_⟩
    unfold Sqlite.onLine
    simp only [hsentinel, Bool.false_eq_true, if_false]
    refine { h with lines := by simpa using h.lines, rows := ?_ }
    intro row hrow
    rcases List.mem_append.mp hrow with hrow | hrow
    · exact h.rows row hrow
    · rw [List.mem_singleton.mp hrow]
      exact hsentinel
  | true =>
    cases flights with
    | nil =>
      have := h.lines
      simp at this
    | cons f flights =>
      have hlines : f.reply.rows ++ sentinelLine f.total :: (flights.map Flight.lines).flatten =
          s.rows ++ line :: ahead := by
        simpa [Flight.lines] using h.lines
      obtain ⟨hrows, hline, hahead⟩ := first_sentinel (h.honest f (by simp)) h.rows
        (sentinel_isPrefixOf_sentinelLine f.total) hsentinel hlines
      have hqueue := h.queue
      cases hq : s.q with
      | nil => simp [hq] at hqueue
      | cons w q =>
        simp only [hq, List.map_cons, List.cons_append, List.cons.injEq] at hqueue
        obtain ⟨hid, hqueue⟩ := hqueue
        have hdistinct := h.distinct
        simp only [hq, List.map_cons, List.nodup_cons] at hdistinct
        have hread : unread s.stderr f.id = [] := by
          rw [unread, List.map_eq_nil_iff, List.filter_eq_nil_iff]
          intro x hx
          have := hquiet hsentinel x hx w (by simp [hq])
          simpa [← hid] using this
        obtain ⟨hcurrent, hothers⟩ := h.errors
        rw [hread, List.append_nil] at hcurrent
        obtain ⟨base, hbase, htotal, hchain⟩ := h.totals
        have hchanged : sub (number (line.drop sentinel.length)) s.lastTotal =
            some (f.reply.changes : Int) := by
          rw [← hline, number_sentinelLine, hbase]
          simp only [sub, htotal, Option.pure_def, Option.bind_eq_bind, Option.bind_some,
            Option.some.injEq]
          omega
        refine ⟨flights, ?_⟩
        unfold Sqlite.onLine
        simp only [hsentinel, if_true, hq]
        constructor
        case queue => exact hqueue
        case lines => simpa using hahead
        case rows => simp
        case honest => exact fun g hg => h.honest g (List.mem_cons_of_mem _ hg)
        case totals => exact ⟨f.total, by rw [← hline, number_sentinelLine], hchain⟩
        case distinct => exact hdistinct.2
        case fresh => exact fun v hv => h.fresh v (by simp [hq, hv])
        case tags =>
          intro x hx
          have htag := h.tags x hx
          have hne := hquiet hsentinel x hx w (by simp [hq])
          simp only [List.map_cons, List.mem_cons] at htag
          rcases htag with htag | htag
          · exact absurd (htag.trans hid.symm) hne
          · exact htag
        case errors =>
          cases flights with
          | nil => rfl
          | cons g flights =>
            exact ⟨hothers g (by simp), fun k hk => hothers k (List.mem_cons_of_mem _ hk)⟩
        case logged => exact fun g hg => h.logged g (List.mem_cons_of_mem _ hg)
        case answered =>
          intro id outcome hmem
          rcases List.mem_append.mp hmem with hmem | hmem
          · exact h.answered id outcome hmem
          · obtain ⟨rfl, rfl⟩ := Prod.mk.inj (List.mem_singleton.mp hmem)
            have hreply : (w.id, f.reply) ∈ s.replies := hid ▸ h.logged f (by simp)
            rw [hcurrent]
            by_cases herr : trim f.reply.err = []
            · rw [if_neg (not_not.mpr herr)]
              exact ⟨f.reply, hreply, hrows.symm, hchanged⟩
            · rw [if_pos herr]
              exact ⟨f.reply, hreply, herr, rfl⟩

/-- Several lines of output keep the alignment. -/
theorem Aligned.onLines {s : Sqlite} {flights : List Flight} {lines ahead : List Text}
    (h : Aligned s flights (lines ++ ahead))
    (hquiet : ∀ x ∈ s.stderr,
      x.1 ∉ (s.q.take (lines.countP (sentinel.isPrefixOf ·))).map Waiter.id) :
    ∃ flights', Aligned (lines.foldl Sqlite.onLine s) flights' ahead := by
  induction lines generalizing s flights with
  | nil => exact ⟨flights, h⟩
  | cons line lines ih =>
    have hhead : sentinel.isPrefixOf line = true →
        ∀ x ∈ s.stderr, ∀ w ∈ s.q.head?, x.1 ≠ w.id := by
      intro hsentinel x hx w hw
      have hnot := hquiet x hx
      cases hq : s.q with
      | nil => simp [hq] at hw
      | cons v q =>
        obtain rfl : v = w := by simpa [hq] using hw
        simp only [hq, List.countP_cons, hsentinel, if_true, List.take_succ_cons, List.map_cons,
          List.mem_cons, not_or] at hnot
        exact hnot.1
    obtain ⟨flights', hnext⟩ := h.onLine hhead
    refine ih hnext ?_
    intro x hx
    have hstderr : (s.onLine line).stderr = s.stderr := by
      unfold Sqlite.onLine
      cases s.q <;> split <;> rfl
    rw [hstderr] at hx
    have hnot := hquiet x hx
    cases hsentinel : sentinel.isPrefixOf line with
    | false =>
      have hq : (s.onLine line).q = s.q := by
        unfold Sqlite.onLine
        simp [hsentinel]
      simpa [hq, List.countP_cons, hsentinel] using hnot
    | true =>
      cases hq : s.q with
      | nil =>
        have hq' : (s.onLine line).q = [] := by
          unfold Sqlite.onLine
          simp [hsentinel, hq]
        simp [hq']
      | cons w q =>
        have hq' : (s.onLine line).q = q := by
          unfold Sqlite.onLine
          simp [hsentinel, hq]
        simp only [hq, List.countP_cons, hsentinel, if_true, List.take_succ_cons, List.map_cons,
          List.mem_cons, not_or] at hnot
        rw [hq']
        exact hnot.2

end pcoin.store
