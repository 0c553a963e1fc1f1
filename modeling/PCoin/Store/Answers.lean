import PCoin.Store.Pipes

namespace pcoin.store

namespace Sqlite

/-- The events of a run in which everything arrives in time: no request times out,
no row looks like a sentinel, no chunk ends inside a character, error text is read
only when its request is the oldest one waiting, and before its sentinel is. -/
def InTime (s : Sqlite) : Event → Prop
  | .timeout _ => False
  | .answer reply => ∀ row ∈ reply.rows, sentinel.isPrefixOf row = false
  | .readOut n => ∀ x ∈ s.stderr, x.1 ∉ (s.q.take (s.completed n)).map Waiter.id
  | .splitOut _ => False
  | .readErr n => ∀ x ∈ s.stderr.take n, ∀ w ∈ s.q.head?, x.1 = w.id
  | .splitErr _ => False
  | _ => True

end Sqlite

/-- The states of a run that is in time: the child is gone with every request
rejected, or queue and output are aligned. -/
def Sound (s : Sqlite) : Prop :=
  (s.alive = false ∧ s.q = [] ∧ s.Answered) ∨
    ∃ flights ahead, Aligned s flights ahead ∧ unlines ahead = s.buf ++ s.stdout

theorem sound_initial : Sound {} := by
  refine .inr ⟨[], [], ?_, rfl⟩
  constructor
  case totals => exact ⟨0, rfl, rfl⟩
  case errors => rfl
  case answered =>
    intro id outcome hmem
    simp at hmem
  all_goals simp

/-- With no request waiting, output settles nothing. -/
theorem onLines_of_empty {s : Sqlite} (hq : s.q = []) (lines : List Text) :
    (lines.foldl Sqlite.onLine s).q = [] ∧ (lines.foldl Sqlite.onLine s).alive = s.alive ∧
      (lines.foldl Sqlite.onLine s).settled = s.settled ∧
      (lines.foldl Sqlite.onLine s).replies = s.replies := by
  induction lines generalizing s with
  | nil => exact ⟨hq, rfl, rfl, rfl⟩
  | cons line lines ih =>
    have hline : (s.onLine line).q = [] ∧ (s.onLine line).alive = s.alive ∧
        (s.onLine line).settled = s.settled ∧ (s.onLine line).replies = s.replies := by
      unfold Sqlite.onLine
      rw [hq]
      split <;> simp
    obtain ⟨hq', halive, hsettled, hreplies⟩ := hline
    obtain ⟨h1, h2, h3, h4⟩ := ih hq'
    exact ⟨h1, h2.trans halive, h3.trans hsettled, h4.trans hreplies⟩

/-- A dead store stays dead and settles nothing but the calls it refuses. -/
theorem dead_step {s t : Sqlite} {e : Event} (h : s.alive = false ∧ s.q = [] ∧ s.Answered)
    (hok : s.InTime e) (hstep : s.step e = some t) :
    t.alive = false ∧ t.q = [] ∧ t.Answered := by
  obtain ⟨halive, hq, hanswered⟩ := h
  cases e with
  | run sql ms =>
    obtain rfl : s.run sql ms = t := by simpa [Sqlite.step] using hstep
    rw [Sqlite.run, if_neg (by simp [halive])]
    refine ⟨halive, hq, ?_⟩
    intro id outcome hmem
    rcases List.mem_append.mp hmem with hmem | hmem
    · exact hanswered id outcome hmem
    · obtain ⟨rfl, rfl⟩ := Prod.mk.inj (List.mem_singleton.mp hmem)
      trivial
  | timeout id => exact hok.elim
  | answer reply =>
    cases hin : s.stdin with
    | nil => simp [Sqlite.step, hin] at hstep
    | cons request stdin =>
      obtain rfl := by simpa [Sqlite.step, hin] using hstep
      refine ⟨halive, hq, ?_⟩
      intro id outcome hmem
      exact (hanswered id outcome hmem).mono (List.subset_append_left _ _)
  | readOut n =>
    obtain rfl := by simpa [Sqlite.step] using hstep
    unfold Sqlite.onData
    obtain ⟨h1, h2, h3, h4⟩ := onLines_of_empty (s := { s with
      stdout := s.stdout.drop n, buf := (splitLines (s.buf ++ s.stdout.take n)).2 }) hq
      (splitLines (s.buf ++ s.stdout.take n)).1
    refine ⟨h2.trans halive, h1, ?_⟩
    intro id outcome hmem
    rw [h3] at hmem
    rw [h4]
    exact hanswered id outcome hmem
  | splitOut n => exact hok.elim
  | readErr n =>
    obtain rfl := by simpa [Sqlite.step] using hstep
    exact ⟨halive, hq, hanswered⟩
  | splitErr n => exact hok.elim
  | exit code =>
    obtain rfl := by simpa [Sqlite.step] using hstep
    refine ⟨rfl, rfl, ?_⟩
    intro id outcome hmem
    simp only [hq, List.map_nil, List.append_nil] at hmem
    exact hanswered id outcome hmem
  | close =>
    obtain rfl := by simpa [Sqlite.step] using hstep
    exact ⟨rfl, hq, hanswered⟩

/-- Every event that is in time keeps the store sound. -/
theorem sound_step {s t : Sqlite} {e : Event} (h : Sound s) (hok : s.InTime e)
    (hstep : s.step e = some t) : Sound t := by
  rcases h with hdead | ⟨flights, ahead, h, hahead⟩
  · exact .inl (dead_step hdead hok hstep)
  · cases e with
    | run sql ms =>
      obtain rfl : s.run sql ms = t := by simpa [Sqlite.step] using hstep
      refine .inr ⟨flights, ahead, h.run sql ms, ?_⟩
      unfold Sqlite.run
      split <;> exact hahead
    | timeout id => exact hok.elim
    | answer reply =>
      cases hin : s.stdin with
      | nil => simp [Sqlite.step, hin] at hstep
      | cons request stdin =>
        obtain rfl := by simpa [Sqlite.step, hin] using hstep
        refine .inr ⟨_, _, h.answer hin hok, ?_⟩
        rw [unlines, List.map_append, List.flatten_append, ← unlines, hahead, List.append_assoc,
          unlines]
    | readOut n =>
      obtain rfl := by simpa [Sqlite.step] using hstep
      obtain ⟨flights', ahead', hnext, hrest⟩ := h.readOut hahead hok
      obtain ⟨hbuf, hout⟩ := onLines_pipes { s with
        stdout := s.stdout.drop n, buf := (splitLines (s.buf ++ s.stdout.take n)).2 }
        (splitLines (s.buf ++ s.stdout.take n)).1
      refine .inr ⟨flights', ahead', hnext, hrest.trans ?_⟩
      unfold Sqlite.onData
      rw [hbuf, hout]
    | splitOut n => exact hok.elim
    | readErr n =>
      simp only [Sqlite.step, Option.some.injEq] at hstep
      subst hstep
      exact .inr ⟨flights, ahead, h.readErr hok, hahead⟩
    | splitErr n => exact hok.elim
    | exit code =>
      obtain rfl := by simpa [Sqlite.step] using hstep
      refine .inl ⟨rfl, rfl, ?_⟩
      intro id outcome hmem
      rcases List.mem_append.mp hmem with hmem | hmem
      · exact h.answered id outcome hmem
      · obtain ⟨w, _, hw⟩ := List.mem_map.mp hmem
        obtain ⟨rfl, rfl⟩ := Prod.mk.inj hw
        trivial
    | close =>
      obtain rfl := by simpa [Sqlite.step] using hstep
      exact .inr ⟨flights, ahead, { h with }, hahead⟩

/-- In every run in which everything arrives in time, each promise is fulfilled
with the rows and the change count of its own request, or rejected with its own
error. -/
theorem answers_belong_to_requests {s : Sqlite} (hrun : run.Steps Sqlite.step Sqlite.InTime {} s) :
    s.Answered := by
  have hsound := hrun.invariant (fun _ _ _ h hok hstep => sound_step h hok hstep) sound_initial
  rcases hsound with ⟨_, _, hanswered⟩ | ⟨_, _, h, _⟩
  · exact hanswered
  · exact h.answered

/-- A reply without errors, for requests that fail nothing. -/
def Reply.ofRow (row : String) (changes : Nat) (h : '\n' ∉ row.toList) : Reply where
  rows := [row.toList]
  err := []
  changes := changes
  lines := by
    intro line hline
    rwa [List.mem_singleton.mp hline]

/-- The first request times out while its reply is on the way; the second is then
fulfilled with the first one's rows and change count. -/
theorem late_reply_misattributed :
    ∃ s : Sqlite, run.exec Sqlite.step {} [.run "INSERT a".toList 15000, .timeout 0,
        .run "INSERT b".toList 15000, .answer (.ofRow "1" 1 (by decide)), .readOut 100] = some s ∧
      s.replies.map (fun x => (x.1, x.2.rows)) = [(0, [['1']])] ∧
      (1, .resolved [['1']] (some 1) (some 1)) ∈ s.settled ∧ ¬ s.Answered := by
  refine ⟨_, rfl, by decide +kernel, by decide +kernel, ?_⟩
  intro hanswered
  obtain ⟨reply, hmem, _⟩ := hanswered 1 (.resolved [['1']] (some 1) (some 1)) (by decide +kernel)
  have hid : 1 ∈ List.map Prod.fst _ := List.mem_map_of_mem (f := Prod.fst) hmem
  exact absurd hid (by decide +kernel)

/-- A request that is answered in time gets its own row. -/
theorem answers_belong_to_requests_one :
    ∃ s : Sqlite, run.exec Sqlite.step {} [.run "INSERT a".toList 15000,
        .answer (.ofRow "1" 1 (by decide)), .readOut 100] = some s ∧
      (0, .resolved [['1']] (some 1) (some 1)) ∈ s.settled ∧ s.Answered := by
  have hrow : ∀ row ∈ (Reply.ofRow "1" 1 (by decide)).rows, sentinel.isPrefixOf row = false := by
    decide +kernel
  have hmeets : run.Meets Sqlite.step Sqlite.InTime {} [.run "INSERT a".toList 15000,
      .answer (.ofRow "1" 1 (by decide)), .readOut 100] := by
    refine ⟨trivial, fun t ht => ?_⟩
    obtain rfl := Option.some.inj ht
    refine ⟨hrow, fun t ht => ?_⟩
    obtain rfl := Option.some.inj ht
    exact ⟨fun x hx => absurd hx List.not_mem_nil, fun t _ => trivial⟩
  exact ⟨_, rfl, by decide +kernel,
    answers_belong_to_requests (run.steps_of_exec _ rfl hmeets)⟩

end pcoin.store
