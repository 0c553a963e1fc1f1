import PCoin.Store.Alignment

namespace pcoin.store

/-- How many requests a chunk of `n` characters completes. -/
def Sqlite.completed (s : Sqlite) (n : Nat) : Nat :=
  (splitLines (s.buf ++ s.stdout.take n)).1.countP (sentinel.isPrefixOf ·)

theorem Own.mono {replies replies' : List (Nat × Reply)} (hsub : replies ⊆ replies') {id : Nat}
    {outcome : Outcome} (h : Own replies id outcome) : Own replies' id outcome := by
  cases outcome with
  | resolved rows total changed =>
    obtain ⟨reply, hmem, hrest⟩ := h
    exact ⟨reply, hsub hmem, hrest⟩
  | rejected source message =>
    cases source with
    | stderr =>
      obtain ⟨reply, hmem, hrest⟩ := h
      exact ⟨reply, hsub hmem, hrest⟩
    | timer => trivial
    | exit => trivial
    | notRunning => trivial

section Step

variable {s : Sqlite} {flights : List Flight} {ahead : List Text} (h : Aligned s flights ahead)

include h

theorem Aligned.run (sql : Text) (ms : Nat) : Aligned (s.run sql ms) flights ahead := by
  unfold Sqlite.run
  split
  · have hnew : s.nextId ∉ s.q.map Waiter.id := by
      intro hmem
      obtain ⟨w, hw, hid⟩ := List.mem_map.mp hmem
      have := h.fresh w hw
      omega
    constructor
    case queue => simp [h.queue]
    case distinct => simpa [List.nodup_append] using ⟨h.distinct, fun w hw hid => hnew
      (List.mem_map.mpr ⟨w, hw, hid⟩)⟩
    case fresh =>
      intro w hw
      rcases List.mem_append.mp hw with hw | hw
      · exact Nat.lt_succ_of_lt (h.fresh w hw)
      · rw [List.mem_singleton.mp hw]
        exact Nat.lt_succ_self _
    all_goals first
      | exact h.lines | exact h.rows | exact h.honest | exact h.totals | exact h.tags
      | exact h.errors | exact h.logged | exact h.answered
  · constructor
    case fresh => exact fun w hw => Nat.lt_succ_of_lt (h.fresh w hw)
    case answered =>
      intro id outcome hmem
      rcases List.mem_append.mp hmem with hmem | hmem
      · exact h.answered id outcome hmem
      · obtain ⟨rfl, rfl⟩ := Prod.mk.inj (List.mem_singleton.mp hmem)
        trivial
    all_goals first
      | exact h.queue | exact h.lines | exact h.rows | exact h.honest | exact h.totals
      | exact h.distinct | exact h.tags | exact h.errors | exact h.logged

theorem Aligned.readErr {n : Nat} (hown : ∀ x ∈ s.stderr.take n, ∀ w ∈ s.q.head?, x.1 = w.id) :
    Aligned { s with stderr := s.stderr.drop n
                     errBuf := s.errBuf ++ (s.stderr.take n).map Prod.snd } flights ahead := by
  refine { h with tags := fun x hx => h.tags x (List.mem_of_mem_drop hx), errors := ?_ }
  cases flights with
  | nil =>
    have hempty : s.stderr = [] := by
      rw [List.eq_nil_iff_forall_not_mem]
      intro x hx
      simpa using h.tags x hx
    have hcurrent : s.errBuf = [] := h.errors
    simp [ErrorsOf, hempty, hcurrent]
  | cons f flights =>
    obtain ⟨hcurrent, hothers⟩ := h.errors
    have hqueue := h.queue
    cases hq : s.q with
    | nil => simp [hq] at hqueue
    | cons w q =>
      simp only [hq, List.map_cons, List.cons_append, List.cons.injEq] at hqueue
      have hdistinct := h.distinct
      rw [h.queue] at hdistinct
      have htags : ∀ x ∈ s.stderr.take n, x.1 = f.id := by
        intro x hx
        rw [hown x hx w (by simp [hq]), hqueue.1]
      have hsplit (id : Nat) : unread s.stderr id =
          unread (s.stderr.take n) id ++ unread (s.stderr.drop n) id := by
        rw [unread, unread, unread, ← List.map_append, ← List.filter_append, List.take_append_drop]
      refine ⟨?_, ?_⟩
      · have hall : unread (s.stderr.take n) f.id = (s.stderr.take n).map Prod.snd := by
          rw [unread, List.filter_eq_self.mpr (by simpa using htags)]
        rw [← hcurrent, hsplit, hall, List.append_assoc]
      · intro g hg
        have hne : f.id ≠ g.id := by
          simp only [List.map_cons, List.cons_append, List.nodup_cons, List.mem_append, not_or]
            at hdistinct
          intro hid
          exact hdistinct.1.1 (List.mem_map.mpr ⟨g, hg, hid.symm⟩)
        have hnone : unread (s.stderr.take n) g.id = [] := by
          rw [unread, List.map_eq_nil_iff, List.filter_eq_nil_iff]
          intro x hx
          simpa [htags x hx] using hne
        rw [← hothers g hg, hsplit, hnone, List.nil_append]

theorem Aligned.answer {id : Nat} {written : Text} {stdin : List (Nat × Text)} {reply : Reply}
    (hin : s.stdin = (id, written) :: stdin)
    (hrows : ∀ row ∈ reply.rows, sentinel.isPrefixOf row = false) :
    Aligned { s with stdin := stdin, total := s.total + reply.changes
                     stdout := s.stdout ++
                       unlines (reply.rows ++ [sentinelLine (s.total + reply.changes)])
                     stderr := s.stderr ++ reply.err.map (id, ·)
                     replies := s.replies ++ [(id, reply)] }
      (flights ++ [⟨id, reply, s.total + reply.changes⟩])
      (ahead ++ (reply.rows ++ [sentinelLine (s.total + reply.changes)])) := by
  have hdistinct := h.distinct
  rw [h.queue, hin, List.map_cons] at hdistinct
  have hnew : id ∉ flights.map Flight.id := by
    intro hmem
    have := List.nodup_append.mp hdistinct
    exact this.2.2 id hmem id (by simp) rfl
  have hold (f : Flight) (hf : f ∈ flights) :
      unread (s.stderr ++ reply.err.map (id, ·)) f.id = unread s.stderr f.id := by
    have hne : id ≠ f.id := fun hid => hnew (List.mem_map.mpr ⟨f, hf, hid.symm⟩)
    have hnone : unread (reply.err.map (id, ·)) f.id = [] := by
      rw [unread, List.map_eq_nil_iff, List.filter_eq_nil_iff]
      intro x hx
      obtain ⟨c, _, rfl⟩ := List.mem_map.mp hx
      simpa using hne
    rw [unread] at hnone ⊢
    rw [List.filter_append, List.map_append, hnone, List.append_nil, unread]
  have hown : unread (s.stderr ++ reply.err.map (id, ·)) id = reply.err := by
    have hnone : s.stderr.filter (·.1 = id) = [] := by
      rw [List.filter_eq_nil_iff]
      intro x hx
      have htag := h.tags x hx
      have : x.1 ≠ id := fun hid => hnew (hid ▸ htag)
      simpa using this
    have hall : (reply.err.map (id, ·)).filter (·.1 = id) = reply.err.map (id, ·) := by
      rw [List.filter_eq_self]
      intro x hx
      obtain ⟨c, _, rfl⟩ := List.mem_map.mp hx
      simp
    rw [unread, List.filter_append, hnone, hall, List.nil_append, List.map_map]
    exact List.map_id _
  obtain ⟨base, hbase, hchain⟩ := h.totals
  constructor
  case queue => simp [h.queue, hin]
  case lines => simp [h.lines, Flight.lines]
  case honest =>
    intro f hf
    rcases List.mem_append.mp hf with hf | hf
    · exact h.honest f hf
    · rw [List.mem_singleton.mp hf]
      exact hrows
  case totals => exact ⟨base, hbase, Flight.Chained.append hchain rfl⟩
  case tags =>
    intro x hx
    rcases List.mem_append.mp hx with hx | hx
    · rw [List.map_append]
      exact List.mem_append_left _ (h.tags x hx)
    · obtain ⟨c, _, rfl⟩ := List.mem_map.mp hx
      simp
  case errors =>
    cases flights with
    | nil =>
      have hcurrent : s.errBuf = [] := h.errors
      exact ⟨by rw [hcurrent, List.nil_append]; exact hown, by simp⟩
    | cons f flights =>
      obtain ⟨hcurrent, hothers⟩ := h.errors
      refine ⟨by rw [hold f (by simp)]; exact hcurrent, ?_⟩
      intro g hg
      rcases List.mem_append.mp hg with hg | hg
      · rw [hold g (List.mem_cons_of_mem _ hg)]
        exact hothers g hg
      · rw [List.mem_singleton.mp hg]
        exact hown
  case logged =>
    intro f hf
    rcases List.mem_append.mp hf with hf | hf
    · exact List.mem_append_left _ (h.logged f hf)
    · rw [List.mem_singleton.mp hf]
      simp
  case answered =>
    intro k outcome hmem
    exact (h.answered k outcome hmem).mono (List.subset_append_left _ _)
  all_goals first | exact h.rows | exact h.distinct | exact h.fresh

theorem Aligned.newline_notMem {line : Text} (hline : line ∈ ahead) : '\n' ∉ line := by
  have hmem : line ∈ (flights.map Flight.lines).flatten := by
    rw [h.lines]
    exact List.mem_append_right _ hline
  obtain ⟨lines, hlines, hmem⟩ := List.mem_flatten.mp hmem
  obtain ⟨f, _, rfl⟩ := List.mem_map.mp hlines
  exact f.newline_notMem hmem

theorem Aligned.readOut {n : Nat} (hahead : unlines ahead = s.buf ++ s.stdout)
    (hquiet : ∀ x ∈ s.stderr, x.1 ∉ (s.q.take (s.completed n)).map Waiter.id) :
    ∃ flights' ahead', Aligned ({ s with stdout := s.stdout.drop n }.onData (s.stdout.take n))
      flights' ahead' ∧ unlines ahead' = (splitLines (s.buf ++ s.stdout.take n)).2 ++
        s.stdout.drop n := by
  obtain ⟨hjoin, hlines⟩ := splitLines_spec (s.buf ++ s.stdout.take n)
  have htext : unlines (splitLines (s.buf ++ s.stdout.take n)).1 ++
      ((splitLines (s.buf ++ s.stdout.take n)).2 ++ s.stdout.drop n) = unlines ahead := by
    rw [← List.append_assoc, hjoin, List.append_assoc, List.take_append_drop, hahead]
  obtain ⟨ahead', rfl, hrest⟩ := unlines_eq_append hlines (fun l hl => h.newline_notMem hl) htext
  have hbuf : Aligned { s with stdout := s.stdout.drop n
                               buf := (splitLines (s.buf ++ s.stdout.take n)).2 } flights
      ((splitLines (s.buf ++ s.stdout.take n)).1 ++ ahead') := { h with }
  obtain ⟨flights', hnext⟩ := hbuf.onLines hquiet
  exact ⟨flights', ahead', hnext, hrest.symm⟩

end Step

/-- Lines leave the buffer and the unread output alone. -/
theorem onLines_pipes (s : Sqlite) (lines : List Text) :
    (lines.foldl Sqlite.onLine s).buf = s.buf ∧
      (lines.foldl Sqlite.onLine s).stdout = s.stdout := by
  induction lines generalizing s with
  | nil => exact ⟨rfl, rfl⟩
  | cons line lines ih =>
    obtain ⟨hbuf, hout⟩ := ih (s.onLine line)
    have hline : (s.onLine line).buf = s.buf ∧ (s.onLine line).stdout = s.stdout := by
      unfold Sqlite.onLine
      cases s.q <;> split <;> exact ⟨rfl, rfl⟩
    exact ⟨hbuf.trans hline.1, hout.trans hline.2⟩

end pcoin.store
