import PCoin.Run.Basic
import Mathlib.Data.Nat.Notation

namespace pcoin.store

/-- Text that travels through the pipes of the `sqlite3` child. -/
abbrev Text := List Char

/-- `SENTINEL`. -/
def sentinel : Text := "<<<END>>>".toList

/-- White space as `String.prototype.trim` knows it. -/
def isSpace (c : Char) : Bool :=
  c ∈ ['\t', '\n', '\x0b', '\x0c', '\r', ' ', '\u00a0', '\u1680', '\u2028', '\u2029', '\u202f',
    '\u205f', '\u3000', '\ufeff'] || ('\u2000' ≤ c && c ≤ '\u200a')

def trim (s : Text) : Text := ((s.dropWhile isSpace).reverse.dropWhile isSpace).reverse

/-- `s.split('\n')[0]`. -/
def firstLine (s : Text) : Text := s.takeWhile (· ≠ '\n')

/-- `Number(s)`, with `none` for `NaN`. Only what `total_changes()` prints is read
as a number: other numeric literals follow a sentinel only in a forged row. -/
def number (s : Text) : Option Int :=
  if s ≠ [] ∧ s.all Char.isDigit then some (Nat.ofDigitChars 10 s 0) else none

/-- The replacement character that `Buffer.toString` decodes a part of a
multi-byte character to. -/
def replacement : Char := '\ufffd'

/-- The complete lines of a buffer and the unfinished rest. -/
def splitLines : Text → List Text × Text
  | [] => ([], [])
  | c :: cs =>
    let (lines, rest) := splitLines cs
    if c = '\n' then ([] :: lines, rest)
    else
      match lines with
      | [] => ([], c :: rest)
      | line :: lines => ((c :: line) :: lines, rest)

/-- Where the text of a rejection comes from. -/
inductive Source
  | stderr
  | timer
  | exit
  | notRunning
deriving DecidableEq

/-- How a `run()` promise is settled. -/
inductive Outcome
  | resolved (rows : List Text) (totalChanges changed : Option Int)
  | rejected (source : Source) (message : Text)
deriving DecidableEq

/-- A queued request: its number and the bound its timer was set to. -/
structure Waiter where
  id : Nat
  ms : Nat
deriving DecidableEq

/-- What the child does for one request: the lines it prints before the sentinel,
what it writes to stderr, and by how much `total_changes()` grows. -/
structure Reply where
  rows : List Text
  err : Text
  changes : Nat
  lines : ∀ row ∈ rows, '\n' ∉ row

/-- The `Sqlite` object with its child. `q`, `rows`, `errBuf`, `lastTotal` and `buf`
are its fields; `stdin`, `stdout` and `stderr` are the pipes, as written and not yet
read, with every character of stderr marked by the request it belongs to; `replies`
and `settled` record what the child did for each request and how each promise was
settled. -/
structure Sqlite where
  alive : Bool := true
  q : List Waiter := []
  rows : List Text := []
  errBuf : Text := []
  lastTotal : Option Int := some 0
  buf : Text := []
  stdin : List (Nat × Text) := []
  total : Nat := 0
  stdout : Text := []
  stderr : List (Nat × Char) := []
  nextId : Nat := 0
  replies : List (Nat × Reply) := []
  settled : List (Nat × Outcome) := []

/-- Everything that can happen: a call of `run`, the timer of a request, the child
taking its next request, a chunk of either pipe (ending between two characters or
inside one), the death of the child, and `close()`. -/
inductive Event
  | run (sql : Text) (ms : Nat)
  | timeout (id : Nat)
  | answer (reply : Reply)
  | readOut (n : Nat)
  | splitOut (n : Nat)
  | readErr (n : Nat)
  | splitErr (n : Nat)
  | exit (code : Int)
  | close

/-- The sentinel line of a connection that has changed `total` rows so far. -/
def sentinelLine (total : Nat) : Text := sentinel ++ Nat.toDigits 10 total

def unlines (lines : List Text) : Text := (lines.map (· ++ ['\n'])).flatten

/-- `a - b` on JavaScript numbers. -/
def sub (a b : Option Int) : Option Int := do return (← a) - (← b)

namespace Sqlite

/-- The body of the stdout handler for one line. -/
def onLine (s : Sqlite) (line : Text) : Sqlite :=
  if sentinel.isPrefixOf line then
    let rows := s.rows
    let err := trim s.errBuf
    match s.q with
    | [] => { s with rows := [], errBuf := [] }
    | w :: q =>
      let total := number (line.drop sentinel.length)
      let changed := sub total s.lastTotal
      let outcome :=
        if err ≠ [] then .rejected .stderr (firstLine err) else .resolved rows total changed
      { s with q := q, rows := [], errBuf := [], lastTotal := total
               settled := s.settled ++ [(w.id, outcome)] }
  else { s with rows := s.rows ++ [line] }

/-- The stdout handler: append the chunk, then take the complete lines. -/
def onData (s : Sqlite) (chunk : Text) : Sqlite :=
  let (lines, rest) := splitLines (s.buf ++ chunk)
  lines.foldl onLine { s with buf := rest }

def run (s : Sqlite) (sql : Text) (ms : Nat) : Sqlite :=
  if s.alive then
    { s with q := s.q ++ [⟨s.nextId, ms⟩]
             stdin := s.stdin ++ [(s.nextId, sql ++ "\nSELECT '".toList ++ sentinel ++
               "'||total_changes();\n".toList)]
             nextId := s.nextId + 1 }
  else
    { s with settled := s.settled ++ [(s.nextId, .rejected .notRunning "store is not running".toList)]
             nextId := s.nextId + 1 }

/-- `store timed out after ${Math.round(ms / 1000)}s`. -/
def timeoutMessage (ms : Nat) : Text :=
  "store timed out after ".toList ++ Nat.toDigits 10 ((ms + 500) / 1000) ++ ['s']

def exitMessage (code : Int) : Text :=
  "sqlite3 exited (".toList ++ (toString code).toList ++ [')']

def step (s : Sqlite) : Event → Option Sqlite
  | .run sql ms => some (s.run sql ms)
  | .timeout id => do
    let w ← s.q.find? (·.id = id)
    return { s with q := s.q.filter (·.id ≠ id)
                    settled := s.settled ++ [(id, .rejected .timer (timeoutMessage w.ms))] }
  | .answer reply =>
    match s.stdin with
    | [] => none
    | (id, _) :: stdin =>
      let total := s.total + reply.changes
      some { s with stdin := stdin, total := total
                    stdout := s.stdout ++ unlines (reply.rows ++ [sentinelLine total])
                    stderr := s.stderr ++ reply.err.map (id, ·)
                    replies := s.replies ++ [(id, reply)] }
  | .readOut n => some ({ s with stdout := s.stdout.drop n }.onData (s.stdout.take n))
  | .splitOut n =>
    some ({ s with stdout := replacement :: s.stdout.drop (n + 1) }.onData
      (s.stdout.take n ++ [replacement]))
  | .readErr n =>
    some { s with stderr := s.stderr.drop n
                  errBuf := s.errBuf ++ (s.stderr.take n).map Prod.snd }
  | .splitErr n => do
    let (id, _) ← s.stderr[n]?
    return { s with stderr := (id, replacement) :: s.stderr.drop (n + 1)
                    errBuf := s.errBuf ++ (s.stderr.take n).map Prod.snd ++ [replacement] }
  | .exit code =>
    some { s with alive := false, q := []
                  settled := s.settled ++
                    s.q.map fun w => (w.id, .rejected .exit (exitMessage code)) }
  | .close => some { s with alive := false }

end Sqlite

end pcoin.store

namespace pcoin.store

theorem splitLines_spec (s : Text) :
    unlines (splitLines s).1 ++ (splitLines s).2 = s ∧
      ∀ line ∈ (splitLines s).1, '\n' ∉ line := by
  induction s with
  | nil => simp [splitLines, unlines]
  | cons c cs ih =>
    obtain ⟨hjoin, hlines⟩ := ih
    simp only [splitLines]
    by_cases hc : c = '\n'
    · subst hc
      simp only [if_true]
      refine ⟨?_, ?_⟩
      · simpa [unlines] using hjoin
      · intro line hline
        rcases List.mem_cons.mp hline with rfl | hline
        · simp
        · exact hlines line hline
    · rw [if_neg hc]
      cases hl : (splitLines cs).1 with
      | nil =>
        rw [hl] at hjoin
        simpa [unlines] using hjoin
      | cons line lines =>
        rw [hl] at hjoin hlines
        refine ⟨?_, ?_⟩
        · simpa [unlines] using hjoin
        · intro other hother
          rcases List.mem_cons.mp hother with rfl | hother
          · simp only [List.mem_cons, not_or]
            exact ⟨fun h => hc h.symm, hlines line (by simp)⟩
          · exact hlines other (List.mem_cons_of_mem _ hother)

theorem append_newline_inj {a b x y : Text} (ha : '\n' ∉ a) (hb : '\n' ∉ b)
    (h : a ++ '\n' :: x = b ++ '\n' :: y) : a = b ∧ x = y := by
  induction a generalizing b with
  | nil =>
    cases b with
    | nil => simpa using h
    | cons d b =>
      simp only [List.nil_append, List.cons_append, List.cons.injEq] at h
      simp [← h.1] at hb
  | cons c a ih =>
    cases b with
    | nil =>
      simp only [List.nil_append, List.cons_append, List.cons.injEq] at h
      simp [h.1] at ha
    | cons d b =>
      simp only [List.cons_append, List.cons.injEq] at h
      simp only [List.mem_cons, not_or] at ha hb
      obtain ⟨rfl, rfl⟩ := ih ha.2 hb.2 h.2
      exact ⟨by rw [h.1], rfl⟩

/-- Complete lines at the start of a text are its first lines. -/
theorem unlines_eq_append {front lines : List Text} {rest : Text}
    (hfront : ∀ line ∈ front, '\n' ∉ line) (hlines : ∀ line ∈ lines, '\n' ∉ line)
    (h : unlines front ++ rest = unlines lines) :
    ∃ back, lines = front ++ back ∧ rest = unlines back := by
  induction front generalizing lines with
  | nil => exact ⟨lines, rfl, by simpa [unlines] using h⟩
  | cons line front ih =>
    cases lines with
    | nil => simp [unlines] at h
    | cons other lines =>
      have hjoin : line ++ '\n' :: (unlines front ++ rest) = other ++ '\n' :: unlines lines := by
        simpa [unlines] using h
      obtain ⟨rfl, hrest⟩ := append_newline_inj (hfront line (by simp)) (hlines other (by simp)) hjoin
      obtain ⟨back, rfl, hback⟩ := ih (fun l hl => hfront l (List.mem_cons_of_mem _ hl))
        (fun l hl => hlines l (List.mem_cons_of_mem _ hl)) hrest
      exact ⟨back, rfl, hback⟩

theorem number_sentinelLine (total : Nat) :
    number ((sentinelLine total).drop sentinel.length) = some (total : Int) := by
  have hdigits : (Nat.toDigits 10 total).all Char.isDigit = true := by
    rw [List.all_eq_true]
    intro c hc
    exact Nat.isDigit_of_mem_toDigits (b := 10) (by decide) (by decide) hc
  rw [sentinelLine, List.drop_left, number, if_pos ⟨Nat.toDigits_ne_nil, hdigits⟩,
    Nat.ofDigitChars_ten_toDigits]

theorem sentinel_isPrefixOf_sentinelLine (total : Nat) :
    sentinel.isPrefixOf (sentinelLine total) = true := by
  rw [List.isPrefixOf_iff_prefix, sentinelLine]
  exact List.prefix_append _ _

theorem newline_notMem_sentinelLine (total : Nat) : '\n' ∉ sentinelLine total := by
  rw [sentinelLine, List.mem_append, not_or]
  refine ⟨by decide, ?_⟩
  intro hmem
  have := Nat.isDigit_of_mem_toDigits (b := 10) (by decide) (by decide) hmem
  exact absurd this (by decide)

end pcoin.store
