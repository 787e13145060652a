import Entailment.Proofs.Outcomes
import Entailment.Proofs.Sentence.Runs

/-! # Reading line by line

A parse file can be read in one pass. Each line is read as it comes, and the rows of a sentence are
kept until a blank line or the end of the file shows that the sentence is complete.

* **`Progress`**, **`Progress.step`**, **`Progress.close`** — what is known between two lines, what
  one more line adds, and the end of a sentence;
* **`readLines`** — the sentences of a file with the lines that they begin on;
* **`readLines_eq`** — they are the sentences on the runs of lines, and the same error is met
  first. -/

namespace Entailment

/-- What is known between two lines of a file. -/
structure Progress where
  /-- The complete sentences, each with the line that it begins on. -/
  sentences : List (Nat × Fragment)
  /-- The line that the last sentence begins on. -/
  start : Nat
  /-- The rows of a sentence that may go on. -/
  rows : List Row

namespace Progress

/-- The sentences if no row follows. -/
def close (s : Progress) : Except ReadError (List (Nat × Fragment)) :=
  if s.rows.isEmpty then .ok s.sentences
  else do
    let f ← Row.fragment s.rows
    .ok (s.sentences ++ [(s.start, f)])

/-- What is known after one more line. -/
def step (s : Progress) (p : TrimmedLine) : Except ReadError Progress :=
  if p.2.isEmpty then do
    let sentences ← s.close
    .ok { s with sentences, rows := [] }
  else do
    let row ← Row.parse p.1 p.2
    .ok { s with start := if s.rows.isEmpty then p.1 else s.start, rows := s.rows ++ [row] }

end Progress

/-- The sentences on some lines, after those that are known. -/
def Progress.read (s : Progress) (lines : List TrimmedLine) :
    Except ReadError (List (Nat × Fragment)) := do
  let s ← lines.foldlM Progress.step s
  s.close

/-- The sentences of a parse file, in order, each with the line that it begins on. -/
def readLines (text : String) : Except ReadError (List (Nat × Fragment)) :=
  Progress.read ⟨[], 0, []⟩ (trimmedLines text)

namespace Progress

variable {s : Progress} {p : TrimmedLine} {lines run : List TrimmedLine}
  {runs : List (List TrimmedLine)}

/-! ## One line -/

/-- With no lines left, the last sentence ends. -/
theorem read_nil (s : Progress) : s.read [] = s.close := rfl

/-- The first line is read, and then the others. -/
theorem read_cons (s : Progress) (p : TrimmedLine) (lines : List TrimmedLine) :
    s.read (p :: lines) = s.step p >>= fun s => s.read lines := by
  rw [read, List.foldlM_cons, bind_assoc]
  rfl

/-- A sentence ends before a blank line, and at the end of the file. -/
theorem read_of_rows (hrows : s.rows ≠ []) (hend : ∀ p ∈ lines.head?, p.2.isEmpty = true) :
    s.read lines = Row.fragment s.rows >>= fun f =>
      read ⟨s.sentences ++ [(s.start, f)], s.start, []⟩ lines := by
  cases lines with
  | nil =>
      rw [read_nil, close, if_neg (by simpa using hrows)]
      rfl
  | cons p lines =>
      simp only [read_cons, step, hend p rfl, if_true, close, List.isEmpty_iff, hrows, if_false]
      cases Row.fragment s.rows <;> rfl

/-- A row that is read is kept. -/
theorem step_of_row (s : Progress) (hp : p.2.isEmpty = false) :
    s.step p = Row.parse p.1 p.2 >>= fun row =>
      .ok ⟨s.sentences, if s.rows.isEmpty then p.1 else s.start, s.rows ++ [row]⟩ := by
  rw [step, if_neg (by simp [hp])]

/-! ## The lines of a sentence -/

/-- More lines of a sentence add their rows. -/
theorem read_append (hrows : s.rows ≠ []) (hrun : ∀ p ∈ run, p.2.isEmpty = false) :
    s.read (run ++ lines) = run.mapM (fun p => Row.parse p.1 p.2) >>= fun rows =>
      read ⟨s.sentences, s.start, s.rows ++ rows⟩ lines := by
  induction run generalizing s with
  | nil => simp [pure, Except.pure, bind, Except.bind]
  | cons p run ih =>
      obtain ⟨hp, hrun⟩ := List.forall_mem_cons.1 hrun
      rw [List.cons_append, read_cons, step_of_row s hp, List.mapM_cons]
      simp only [List.isEmpty_iff, hrows, if_false, bind_assoc]
      refine bind_congr fun row => ?_
      show read ⟨s.sentences, s.start, s.rows ++ [row]⟩ (run ++ lines) = _
      rw [ih (by simp) hrun]
      simp [pure, Except.pure, bind, Except.bind]

/-- A whole sentence is read and added to those that are known. -/
theorem read_run {sentences : List (Nat × Fragment)} {start : Nat} (hne : run ≠ [])
    (hrun : ∀ p ∈ run, p.2.isEmpty = false) (hend : ∀ p ∈ lines.head?, p.2.isEmpty = true) :
    read ⟨sentences, start, []⟩ (run ++ lines) = readRun run >>= fun f =>
      read ⟨sentences ++ [(runStart run, f)], runStart run, []⟩ lines := by
  cases run with
  | nil => exact absurd rfl hne
  | cons p run =>
      obtain ⟨hp, hrun⟩ := List.forall_mem_cons.1 hrun
      rw [List.cons_append, read_cons, step_of_row _ hp, readRun, List.mapM_cons]
      simp only [bind_assoc]
      refine bind_congr fun row => ?_
      -- The first row sets the line that the sentence begins on.
      show read ⟨sentences, p.1, [row]⟩ (run ++ lines) = _
      rw [read_append (by simp) hrun]
      refine bind_congr fun rows => ?_
      exact read_of_rows (by simp) hend

/-- The sentences on the runs of some lines are read one after the other. -/
theorem read_eq (h : MaximalRuns (fun p => p.2.isEmpty) lines runs)
    (sentences : List (Nat × Fragment)) (start : Nat) :
    read ⟨sentences, start, []⟩ lines =
      (runs.mapM readRun).map fun fs => sentences ++ (runs.map runStart).zip fs := by
  induction h generalizing sentences start with
  | nil => simp [read_nil, close, pure, Except.pure, Except.map]
  | skip hp _ ih =>
      rw [read_cons, step, if_pos hp]
      exact ih sentences start
  | run hne hrun hend _ ih =>
      rw [read_run hne hrun hend, List.mapM_cons]
      simp only [ih]
      cases readRun _ with
      | error e => rfl
      | ok f =>
          cases List.mapM readRun _ with
          | error e => rfl
          | ok fs => simp [bind, Except.bind, pure, Except.pure, Except.map]

end Progress

/-- Reading line by line gives the sentences on the runs of lines, with the lines that they begin
on, and meets the same error first. -/
theorem readLines_eq (text : String) :
    readLines text =
      (readSentences text).map fun fs => ((sentenceRuns text).map runStart).zip fs := by
  rw [readLines, Progress.read_eq (maximalRuns_iff.2 (Eq.refl (sentenceRuns text)))]
  rfl

end Entailment
