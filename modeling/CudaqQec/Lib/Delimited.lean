import Mathlib.Data.List.Basic

/-!
# Delimited texts

A text of lines, each ended by a delimiter, and what a reader that splits at the delimiter gets back.
The reader takes an unfinished last line only when it holds something, so the last delimiter may be
cut off a text whose last line is not empty.

* `lines_terminate`: reading the lines of a terminated text.
* `lines_dropLast_terminate`: the same without the last delimiter.
-/

namespace CudaqQec.Delimited

variable {α : Type} [DecidableEq α]

@[grind =] def linesFrom (d : α) : List α → List α → List (List α)
  | [], [] => []
  | line, [] => [line.reverse]
  | line, x :: xs => if x = d then line.reverse :: linesFrom d [] xs else linesFrom d (x :: line) xs

def lines (d : α) (text : List α) : List (List α) := linesFrom d [] text

def terminate (d : α) (ls : List (List α)) : List α := ls.flatMap fun line => line ++ [d]

variable {d : α}

theorem linesFrom_append {w : List α} (hw : d ∉ w) (line rest : List α) :
    linesFrom d line (w ++ d :: rest) = (line.reverse ++ w) :: linesFrom d [] rest := by
  induction w generalizing line with
  | nil =>
    cases line with
    | nil => simp [linesFrom]
    | cons x line => simp [linesFrom]
  | cons x w ih =>
    have hx : x ≠ d := by
      rintro rfl
      exact hw List.mem_cons_self
    have hw' : d ∉ w := fun h => hw (List.mem_cons_of_mem x h)
    have hstep : linesFrom d line ((x :: w) ++ d :: rest) =
        linesFrom d (x :: line) (w ++ d :: rest) := by
      cases line <;> simp [linesFrom, hx]
    rw [hstep, ih hw']
    simp

/-- A last line without its delimiter is read when there is something in it. -/
theorem linesFrom_last {w : List α} (hw : d ∉ w) (line : List α) (hne : line.reverse ++ w ≠ []) :
    linesFrom d line w = [line.reverse ++ w] := by
  induction w generalizing line with
  | nil =>
    cases line with
    | nil => simp at hne
    | cons x line => simp [linesFrom]
  | cons x w ih =>
    have hx : x ≠ d := by
      rintro rfl
      exact hw List.mem_cons_self
    have hw' : d ∉ w := fun h => hw (List.mem_cons_of_mem x h)
    have hstep : linesFrom d line (x :: w) = linesFrom d (x :: line) w := by
      cases line <;> simp [linesFrom, hx]
    rw [hstep, ih hw' (x :: line) (by simp)]
    simp

theorem lines_terminate_append {ls : List (List α)} (h : ∀ line ∈ ls, d ∉ line) (rest : List α) :
    lines d (terminate d ls ++ rest) = ls ++ lines d rest := by
  induction ls with
  | nil => rfl
  | cons line ls ih =>
    have ih := ih fun l hl => h l (List.mem_cons_of_mem line hl)
    have hsplit : terminate d (line :: ls) ++ rest = line ++ d :: (terminate d ls ++ rest) := by
      simp [terminate]
    rw [hsplit, lines, linesFrom_append (h line List.mem_cons_self)]
    unfold lines at ih
    rw [ih]
    simp [lines]

theorem lines_terminate {ls : List (List α)} (h : ∀ line ∈ ls, d ∉ line) :
    lines d (terminate d ls) = ls := by
  have := lines_terminate_append h []
  simpa [lines, linesFrom] using this

theorem lines_dropLast_terminate {ls : List (List α)} (h : ∀ line ∈ ls, d ∉ line) {last : List α}
    (hlast : ls.getLast? = some last) (hne : last ≠ []) :
    lines d (terminate d ls).dropLast = ls := by
  obtain ⟨front, rfl⟩ := List.getLast?_eq_some_iff.mp hlast
  have htext : (terminate d (front ++ [last])).dropLast = terminate d front ++ last := by
    simp only [terminate, List.flatMap_append, List.flatMap_cons, List.flatMap_nil, List.append_nil]
    rw [← List.append_assoc, List.dropLast_concat]
  rw [htext, lines_terminate_append fun l hl => h l (List.mem_append_left _ hl), lines]
  rw [linesFrom_last (h last (by simp)) [] (by simpa using hne)]
  simp

end CudaqQec.Delimited
