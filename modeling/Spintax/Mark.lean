/-!
# Spintax.Mark

A point between two characters of a text, kept while reading it from left to right.

* `Mark.next`: the point after one more character. Only the newline starts a line.
* `Mark.past`: the point after a run of characters.
* `Mark.past_segment`: the same by counting the newlines of the run and looking for the last one.
-/

namespace Spintax

/-- A point in a text: how many lines have started, the column in this one, and how many
characters come before. -/
structure Mark where
  line : Nat := 1
  column : Nat := 1
  offset : Nat := 0
deriving DecidableEq

namespace Mark

def next (m : Mark) (c : Char) : Mark :=
  if c = '\n' then ⟨m.line + 1, 1, m.offset + 1⟩ else ⟨m.line, m.column + 1, m.offset + 1⟩

def past (m : Mark) (cs : List Char) : Mark :=
  cs.foldl next m

@[simp] theorem next_offset (m : Mark) (c : Char) : (m.next c).offset = m.offset + 1 := by
  unfold next; split <;> rfl

theorem next_line (m : Mark) (c : Char) :
    (m.next c).line = m.line + if c = '\n' then 1 else 0 := by
  unfold next; split <;> simp [*]

@[simp] theorem past_nil (m : Mark) : m.past [] = m := rfl

@[simp] theorem past_cons (m : Mark) (c : Char) (cs : List Char) :
    m.past (c :: cs) = (m.next c).past cs := rfl

@[simp] theorem past_append (m : Mark) (cs ds : List Char) :
    m.past (cs ++ ds) = (m.past cs).past ds := by
  simp [past]

@[simp] theorem past_offset (m : Mark) (cs : List Char) :
    (m.past cs).offset = m.offset + cs.length := by
  induction cs generalizing m with
  | nil => rfl
  | cons c cs ih => simp [ih]; omega

theorem past_line (m : Mark) (cs : List Char) :
    (m.past cs).line = m.line + cs.count '\n' := by
  induction cs generalizing m with
  | nil => rfl
  | cons c cs ih =>
    rw [past_cons, ih, next_line, List.count_cons]
    by_cases h : c = '\n'
    · simp [h]
      omega
    · simp [h]

/-- The characters behind the last newline. -/
def lastLine (cs : List Char) : List Char :=
  (cs.reverse.takeWhile (· ≠ '\n')).reverse

theorem lastLine_concat (cs : List Char) (c : Char) :
    lastLine (cs ++ [c]) = if c = '\n' then [] else lastLine cs ++ [c] := by
  by_cases h : c = '\n'
  · simp [lastLine, h]
  · simp [lastLine, h]

theorem lastLine_of_not_mem {cs : List Char} (h : '\n' ∉ cs) : lastLine cs = cs := by
  obtain ⟨ds, rfl⟩ : ∃ ds : List Char, cs = ds.reverse := ⟨cs.reverse, cs.reverse_reverse.symm⟩
  induction ds with
  | nil => rfl
  | cons d ds ih =>
    rw [List.reverse_cons, List.mem_append, List.mem_singleton, not_or] at h
    rw [List.reverse_cons, lastLine_concat, if_neg (Ne.symm h.2), ih h.1]

/-- The point after a run, all at once: a line for each newline, and the column is told from the
last one, or from the column before where there is none. -/
theorem past_segment (m : Mark) (cs : List Char) :
    m.past cs =
      ⟨m.line + cs.count '\n',
        if '\n' ∈ cs then 1 + (lastLine cs).length else m.column + cs.length,
        m.offset + cs.length⟩ := by
  -- from the right, as the last newline is looked for
  obtain ⟨ds, rfl⟩ : ∃ ds : List Char, cs = ds.reverse := ⟨cs.reverse, cs.reverse_reverse.symm⟩
  induction ds with
  | nil => rfl
  | cons d ds ih =>
    rw [List.reverse_cons, past_append, ih, past_cons, past_nil, next, lastLine_concat]
    by_cases hd : d = '\n'
    · simp [hd, Nat.add_assoc]
    · have hmem : '\n' ∈ ds.reverse ++ [d] ↔ '\n' ∈ ds.reverse := by simp [Ne.symm hd]
      rw [if_neg hd, if_neg hd, List.length_append, List.length_append]
      simp only [hmem]
      split <;> simp [hd, Nat.add_assoc]

end Mark
end Spintax
