import Spintax.Proofs.Descent

/-!
# Spintax.Proofs.DescentFrames

The two productions and the list of frames are the same parser: where a production stands inside
others, the others are the frames.

* `State.outcome`: what a parser at work comes to on the tokens that are left.
* `parts_outcome`, `block_outcome`, `options_outcome`, `pattern_outcome`: a production adds its tree
  to the frames around it, or ends as the parser does.
* `descent_parse`: from any position, `Descent.parse` without a bound is `Parser.parse`. The exits
  other than faults are never taken.
-/

namespace Spintax

namespace Parser.State

/-- The tree or the fault, and the position and the depth it leaves behind. -/
def outcome (limit : Nat) (s : State) (ts : List Token) : Except Fault Tree × Nat × Nat :=
  match s.run limit ts with
  | .ok s' => (s'.finish, s'.position, s'.depth)
  | .error h => (.error h.fault, h.position, h.depth)

theorem outcome_nil (limit : Nat) (s : State) :
    s.outcome limit [] = (s.finish, s.position, s.depth) := rfl

theorem outcome_cons (limit : Nat) (s : State) (t : Token) (ts : List Token) :
    s.outcome limit (t :: ts) =
      match s.step limit t with
      | .ok s' => s'.outcome limit ts
      | .error h => (.error h.fault, h.position, h.depth) := by
  simp only [outcome, run_cons]
  cases s.step limit t <;> rfl

end Parser.State

namespace Descent

open Spintax.Parser Spintax.Tree

namespace Cursor

variable {ts : List Token}

theorem drop_of_some {c : Cursor ts} {t : Token} (h : c.current = some t) :
    ts.drop c.position = t :: ts.drop (c.position + 1) := by
  rw [c.current_eq] at h
  obtain ⟨hlt, rfl⟩ := List.getElem?_eq_some_iff.1 h
  exact List.drop_eq_getElem_cons hlt

theorem position_of_none {c : Cursor ts} (h : c.current = none) : c.position = ts.length := by
  rw [c.current_eq, List.getElem?_eq_none_iff] at h
  exact Nat.le_antisymm c.position_le h

theorem drop_of_none {c : Cursor ts} (h : c.current = none) : ts.drop c.position = [] := by
  rw [position_of_none h, List.drop_length]

/-- The parser at the cursor, inside these frames. -/
def outcome (c : Cursor ts) (limit depth : Nat) (frames : List Frame) (parts : List Tree) :
    Except Fault Tree × Nat × Nat :=
  State.outcome limit ⟨c.position, depth, frames, parts⟩ (ts.drop c.position)

/-- No part starts here. -/
def Stands (c : Cursor ts) : Prop :=
  ∀ t, c.current = some t → t.kind = .bar ∨ t.kind = .closing

theorem stands_of_none {c : Cursor ts} (h : c.current = none) : c.Stands := by
  intro t ht
  rw [h] at ht
  cases ht

theorem stands_of_some {c : Cursor ts} {t : Token} (h : c.current = some t)
    (hk : t.kind = .bar ∨ t.kind = .closing) : c.Stands := by
  intro u hu
  rw [h] at hu
  cases hu
  exact hk

end Cursor

variable {ts : List Token} {limit : Nat}

/-- An exit is a fault, and the parser comes to it. -/
def Exit.Agrees (e : Exit) (c : Cursor ts) (result : Except Fault Tree × Nat × Nat) : Prop :=
  ∃ (f : Fault) (depth : Nat), e = .fault f ∧ c.depth = depth ∧
    result = (.error f, c.position, depth)

/-- The parser comes to what the reply says, and the tree is added to the parts around it. -/
def Reply.AddsPart {start : Nat} (r : Reply ts start) (limit depth : Nat) (frames : List Frame)
    (around : List Tree) (result : Except Fault Tree × Nat × Nat) : Prop :=
  match r with
  | .done t c _ => c.depth = depth ∧ result = c.outcome limit depth frames (t :: around)
  | .exit e c => e.Agrees c result

/-- The same for a pattern, whose parts are still apart. -/
def Reply.AddsPattern {start : Nat} (r : Reply ts start) (limit depth : Nat)
    (frames : List Frame) (result : Except Fault Tree × Nat × Nat) : Prop :=
  match r with
  | .done t c _ =>
    c.depth = depth ∧ c.Stands ∧ ∃ (newest : Tree) (older : List Tree),
      t = patternOf newest older ∧ result = c.outcome limit depth frames (newest :: older)
  | .exit e c => e.Agrees c result

theorem unexpected_agrees {c : Cursor ts} {t : Token} {depth : Nat} {frames : List Frame}
    {parts : List Tree} (hc : c.current = some t) (hk : t.kind = .bar ∨ t.kind = .closing)
    (hd : c.depth = depth) (hn : parts = [] ∨ frames = []) :
    (c.unexpected t).Agrees c (c.outcome limit depth frames parts) := by
  refine ⟨_, depth, rfl, hd, ?_⟩
  have hz : c.depth = 0 ↔ depth = 0 := by omega
  rw [Cursor.outcome, Cursor.drop_of_some hc, State.outcome_cons]
  have hs : State.step limit ⟨c.position, depth, frames, parts⟩ t =
      .error (State.refuse ⟨c.position, depth, frames, parts⟩ t.value) := by
    rcases hk with hk | hk <;> rcases hn with rfl | rfl <;>
      simp only [State.step, hk, State.nextOption, State.closeBlock]
  simp only [hs, State.refuse, hz]

theorem ofParts_eq (newest : Tree) (older : List Tree) :
    ofParts (newest :: older).reverse
        (((newest :: older).getLast (by simp)).location.spanTo newest.location) =
      .ok (patternOf newest older) := by
  cases h : (newest :: older).reverse with
  | nil => simp at h
  | cons first rest =>
    have hl : (newest :: older).getLast (by simp) = first := by
      rw [List.getLast_eq_head_reverse]
      simp only [h, List.head_cons]
    rw [hl, patternOf_eq h]
    rfl

theorem ofOptions_eq (newest : Tree) (older : List Tree) (l : Location) :
    ofOptions (newest :: older).reverse l = .ok (blockOf newest older l) := by
  cases h : (newest :: older).reverse with
  | nil => simp at h
  | cons first rest =>
    rw [blockOf_eq h]
    rfl

theorem endPattern_outcome {c : Cursor ts} {start depth : Nat} {frames : List Frame}
    (read : List Tree) (hr : read ≠ [] → start < c.position) (hs : c.Stands)
    (hd : c.depth = depth) :
    (c.endPattern start read hr).AddsPattern limit depth frames
      (c.outcome limit depth frames read) := by
  cases read with
  | nil =>
    cases hc : c.current with
    | none =>
      simp only [Cursor.endPattern, hc]
      refine ⟨_, depth, rfl, hd, ?_⟩
      have hp := Cursor.position_of_none hc
      rw [Cursor.outcome, Cursor.drop_of_none hc, State.outcome_nil]
      simp only [State.finish, hp, List.length_eq_zero_iff]
    | some t =>
      simp only [Cursor.endPattern, hc]
      exact unexpected_agrees hc (hs t hc) hd (.inl rfl)
  | cons newest older =>
    simp only [Cursor.endPattern, ofParts_eq]
    exact ⟨hd, hs, newest, older, rfl, rfl⟩

theorem endBlock_outcome {c : Cursor ts} {start depth : Nat} {frames : List Frame}
    {opening : Token} {newest : Tree} {older options before : List Tree}
    (h : start < c.position) (hs : c.Stands) (hb : ∀ t, c.current = some t → t.kind ≠ .bar)
    (hd : c.depth = (depth + 1 : Nat)) :
    (c.endBlock start opening (patternOf newest older :: options) h).AddsPart limit depth frames
      before
      (c.outcome limit (depth + 1) (⟨start, opening, before, options⟩ :: frames)
        (newest :: older)) := by
  rw [Cursor.endBlock]
  split
  · rename_i hc
    refine ⟨_, depth + 1, rfl, hd, ?_⟩
    rw [Cursor.outcome, Cursor.drop_of_none hc, State.outcome_nil]
    rfl
  · rename_i t hc
    have hk : t.kind = .closing := by
      rcases hs t hc with hk | hk
      · exact absurd hk (hb t hc)
      · exact hk
    rw [if_pos hk, ofOptions_eq]
    refine ⟨?_, ?_⟩
    · rw [Cursor.advance_depth, hd]
      omega
    · rw [Cursor.outcome, Cursor.drop_of_some hc, State.outcome_cons]
      simp only [State.step, hk, State.closeBlock]
      rfl

/-! ## The productions

By induction on the tokens that are left, as the productions recurse. A frame is what a production
around the cursor still holds: its brace, the parts before it and the options read so far. -/

mutual

theorem pattern_outcome (c : Cursor ts) (frames : List Frame) {depth : Nat}
    (hd : c.depth = depth) :
    (pattern limit none c).AddsPattern limit depth frames (c.outcome limit depth frames []) := by
  rw [pattern]
  exact parts_outcome c [] (Nat.le_refl _) (by simp) frames hd
termination_by (ts.length - c.position, 2)

theorem parts_outcome {start : Nat} (c : Cursor ts) (read : List Tree) (hs : start ≤ c.position)
    (hr : read ≠ [] → start < c.position) (frames : List Frame) {depth : Nat}
    (hd : c.depth = depth) :
    (parts limit none start read c hs hr).AddsPattern limit depth frames
      (c.outcome limit depth frames read) := by
  rw [parts]
  split
  · rename_i hc
    exact endPattern_outcome read hr (Cursor.stands_of_none hc) hd
  · rename_i t hc
    have hlt := Cursor.position_lt hc
    split
    · -- a text: the loop goes on, and so does the parser
      rename_i hk
      have h := parts_outcome (c.advance hc c.depth) (.text t.value t.location :: read)
        (Nat.le_succ_of_le hs) (fun _ => Nat.lt_succ_of_le hs) frames hd
      have ho : c.outcome limit depth frames read =
          (c.advance hc c.depth).outcome limit depth frames
            (.text t.value t.location :: read) := by
        rw [Cursor.outcome, Cursor.drop_of_some hc, State.outcome_cons]
        simp only [State.step, hk]
        rfl
      rw [ho]
      exact h
    · -- a block: its tree is a part, unless it ends in a fault
      rename_i hk
      have h := block_outcome c hc hk frames read hd
      split
      · rename_i b c' hlt' hb
        rw [hb] at h
        obtain ⟨hd', ho⟩ := h
        rw [ho]
        exact parts_outcome c' (b :: read) _ _ frames hd'
      · rename_i e c' hb
        rw [hb] at h
        exact h
    · rename_i hk
      exact endPattern_outcome read hr (Cursor.stands_of_some hc (.inl hk)) hd
    · rename_i hk
      exact endPattern_outcome read hr (Cursor.stands_of_some hc (.inr hk)) hd
termination_by (ts.length - c.position, 1)

theorem block_outcome (c : Cursor ts) {t : Token} (hc : c.current = some t)
    (hk : t.kind = .opening) (frames : List Frame) (around : List Tree) {depth : Nat}
    (hd : c.depth = depth) :
    (block limit none c).AddsPart limit depth frames around
      (c.outcome limit depth frames around) := by
  rw [block]
  simp only [spend]
  have hlt := Cursor.position_lt hc
  have hstep : c.outcome limit depth frames around =
      match State.openBlock limit ⟨c.position, depth, frames, around⟩ t with
      | .ok s => s.outcome limit (ts.drop (c.position + 1))
      | .error h => (.error h.fault, h.position, h.depth) := by
    rw [Cursor.outcome, Cursor.drop_of_some hc, State.outcome_cons]
    simp only [State.step, hk]
  split
  · rename_i hn
    rw [hc] at hn
    cases hn
  · rename_i u hu
    rw [hc] at hu
    cases hu
    split
    · rename_i hl
      refine ⟨_, depth + 1, rfl, ?_, ?_⟩
      · rw [Cursor.advance_depth, hd]
        rfl
      · rw [hstep, State.openBlock, if_pos (by simp only; omega)]
        rfl
    · rename_i hl
      let inside := c.advance hc (c.depth + 1)
      have hi : inside.depth = (depth + 1 : Nat) := by
        simp only [inside, Cursor.advance_depth, hd]
        rfl
      have h := pattern_outcome inside
        (⟨c.position, t, around, []⟩ :: frames) hi
      have ho : c.outcome limit depth frames around =
          inside.outcome limit (depth + 1) (⟨c.position, t, around, []⟩ :: frames) [] := by
        rw [hstep, State.openBlock, if_neg (by simp only; omega)]
        rfl
      rw [ho]
      split
      · rename_i option c' hlt' hp
        rw [hp] at h
        have hmoved : c.position < c'.position := Nat.lt_of_succ_lt hlt'
        obtain ⟨hd', hst, newest, older, rfl, ho'⟩ := h
        rw [ho']
        exact options_outcome c' _ hst hd'
      · rename_i e c' hp
        rw [hp] at h
        exact h
termination_by (ts.length - c.position, 0)

theorem options_outcome {start : Nat} {opening : Token} {newest : Tree}
    {older options before : List Tree} {frames : List Frame} (c : Cursor ts)
    (hs : start < c.position) (hst : c.Stands) {depth : Nat} (hd : c.depth = (depth + 1 : Nat)) :
    (Descent.options limit none start opening (patternOf newest older :: options) c hs).AddsPart
      limit depth frames before
      (c.outcome limit (depth + 1) (⟨start, opening, before, options⟩ :: frames)
        (newest :: older)) := by
  rw [Descent.options]
  split
  · rename_i hc
    exact endBlock_outcome hs hst (fun t ht => by rw [hc] at ht; cases ht) hd
  · rename_i t hc
    have hlt := Cursor.position_lt hc
    split
    · rename_i hk
      let frame : Frame := ⟨start, opening, before, patternOf newest older :: options⟩
      have h := pattern_outcome (c.advance hc c.depth) (frame :: frames) hd
      have ho : c.outcome limit (depth + 1) (⟨start, opening, before, options⟩ :: frames)
            (newest :: older) =
          (c.advance hc c.depth).outcome limit (depth + 1) (frame :: frames) [] := by
        rw [Cursor.outcome, Cursor.drop_of_some hc, State.outcome_cons]
        simp only [State.step, hk, State.nextOption]
        rfl
      rw [ho]
      split
      · rename_i option c' hlt' hp
        rw [hp] at h
        have hmoved : c.position < c'.position := Nat.lt_of_succ_lt hlt'
        obtain ⟨hd', hst', newest', older', rfl, ho'⟩ := h
        rw [ho']
        exact options_outcome c' _ hst' hd'
      · rename_i e c' hp
        rw [hp] at h
        exact h
    · rename_i hk
      exact endBlock_outcome hs hst (fun u hu => by rw [hc] at hu; cases hu; exact hk) hd
termination_by (ts.length - c.position, 3)

end

/-- The end of a whole parse: no frame is left, and neither may a token be. -/
theorem parse_outcome (limit : Nat) (c : Cursor ts) {depth : Nat} (hd : c.depth = depth) :
    match parse limit none c with
    | (.ok t, c') => ∃ d : Nat, c'.depth = d ∧ c.outcome limit depth [] [] = (.ok t, c'.position, d)
    | (.error e, c') => e.Agrees c' (c.outcome limit depth [] []) := by
  have h : (pattern limit none c).AddsPattern limit depth [] (c.outcome limit depth [] []) :=
    pattern_outcome c [] hd
  cases hp : pattern limit none c with
  | exit e c' =>
    rw [hp] at h
    simp only [parse, hp]
    exact h
  | done t c' hlt =>
    rw [hp] at h
    obtain ⟨hd', hst, newest, older, rfl, ho⟩ := h
    simp only [parse, hp, ho]
    cases hc : c'.current with
    | some u => exact unexpected_agrees hc (hst u hc) hd' (.inr rfl)
    | none =>
      refine ⟨depth, hd', ?_⟩
      rw [Cursor.outcome, Cursor.drop_of_none hc, State.outcome_nil]
      rfl

theorem parse_eq_outcome (p : Parser) :
    p.parse.1 =
        (State.outcome p.limit (.start p.position p.depth) (p.tokens.drop p.position)).1 ∧
      p.parse.2.position =
        (State.outcome p.limit (.start p.position p.depth) (p.tokens.drop p.position)).2.1 ∧
      p.parse.2.depth =
        (State.outcome p.limit (.start p.position p.depth) (p.tokens.drop p.position)).2.2 := by
  unfold Parser.parse State.outcome
  cases (State.start p.position p.depth).run p.limit (p.tokens.drop p.position) with
  | ok s => exact ⟨rfl, rfl, rfl⟩
  | error h => exact ⟨rfl, rfl, rfl⟩

/-- The two productions come to what the list of frames comes to, from any position and depth, and
leave the same position and depth behind. -/
theorem descent_parse (p : Parser) (h : p.position ≤ p.tokens.length) :
    (parse p.limit none (.ofParser p h)).1 = p.parse.1.mapError .fault ∧
      (parse p.limit none (.ofParser p h)).2.position = p.parse.2.position ∧
      (parse p.limit none (.ofParser p h)).2.depth = p.parse.2.depth := by
  have hd : (Cursor.ofParser p h).depth = (p.depth : Int) := rfl
  have ho := parse_outcome p.limit (Cursor.ofParser p h) hd
  have he : (Cursor.ofParser p h).outcome p.limit p.depth [] [] =
      State.outcome p.limit (.start p.position p.depth) (p.tokens.drop p.position) := rfl
  obtain ⟨h₁, h₂, h₃⟩ := parse_eq_outcome p
  rw [he] at ho
  rw [h₁, h₂, h₃]
  rcases hr : parse p.limit none (Cursor.ofParser p h) with ⟨e | t, c'⟩
  · rw [hr] at ho
    obtain ⟨f, depth, rfl, hd, ho⟩ := ho
    rw [ho]
    exact ⟨rfl, rfl, hd⟩
  · rw [hr] at ho
    obtain ⟨depth, hd, ho⟩ := ho
    rw [ho]
    exact ⟨rfl, rfl, hd⟩

end Descent
end Spintax
