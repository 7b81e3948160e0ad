import Spintax.Proofs.Lexemes

/-!
# Spintax.Proofs.Sweep

What is wrong with the text of a template, found in one sweep over its characters that makes
neither tokens nor trees.

* `Sweep.Item`, `Sweep.items`: a character, or a backslash with the one it escapes.
* `Sweep.step`: one item, or the objection to it.
* `Sweep.finish`: the objection to an end.
* `Sweep.verdict`: the first objection to a text.
* `Sweep.items_of_reads`, `Sweep.steps_plain`: the sweep over one lexeme.
-/

namespace Spintax

/-- How far a sweep has come: the point it has reached, the braces of the open blocks, innermost
first, and the brace or bar right before the point, where there is one. -/
structure Sweep where
  mark : Mark := {}
  opens : List Mark := []
  fresh : Option Mark := none

namespace Sweep

inductive Item where
  | single (c : Char)
  | pair (c : Char)
deriving DecidableEq

def Item.chars : Item → List Char
  | .single c => [c]
  | .pair c => ['\\', c]

def items : List Char → List Item
  | [] => []
  | [c] => [.single c]
  | c :: e :: cs => if c = '\\' then .pair e :: items cs else .single c :: items (e :: cs)

/-- What is wrong, and where. -/
structure Objection where
  text : String
  mark : Option Mark

def Objection.diagnostic (file : Option String) (o : Objection) : Diagnostic :=
  ⟨.structural, o.text, o.mark.map fun m => m.line, o.mark.map fun m => m.column, file⟩

def step (limit : Nat) (w : Sweep) (x : Item) : Except Objection Sweep :=
  let behind := w.mark.past x.chars
  if x = .single '{' then
    if limit < w.opens.length + 1 then
      .error ⟨"blocks nested deeper than " ++ toString limit ++ " levels", w.mark⟩
    else .ok ⟨behind, w.mark :: w.opens, w.mark⟩
  else if x = .single '}' then
    if w.opens = [] then .error ⟨"unexpected '\x7d' outside of a block", w.mark⟩
    else if w.fresh.isSome then .error ⟨"empty option before '\x7d'", w.mark⟩
    else .ok ⟨behind, w.opens.tail, none⟩
  else if x = .single '|' ∧ w.opens ≠ [] then
    if w.fresh.isSome then .error ⟨"empty option before '|'", w.mark⟩
    else .ok ⟨behind, w.opens, w.mark⟩
  else .ok ⟨behind, w.opens, none⟩

/-- The objection to an end at this point. An option that has not begun is put down to the brace or
bar before it, one that has begun to the brace of its block. -/
def finish (w : Sweep) : Option Objection :=
  if w.mark.offset = 0 then some ⟨"unexpected end of input, expected text or '\x7b'", none⟩
  else
    match w.fresh, w.opens with
    | some m, _ => some ⟨"unexpected end of input, expected text or '\x7b'", m⟩
    | none, m :: _ => some ⟨"unterminated block, expected '\x7d'", m⟩
    | none, [] => none

def steps (limit : Nat) (w : Sweep) (xs : List Item) : Except Objection Sweep :=
  xs.foldlM (step limit) w

/-- The first objection to a text, if there is one. -/
def verdict (limit : Nat) (cs : List Char) : Option Objection :=
  match steps limit {} (items cs) with
  | .ok w => w.finish
  | .error o => some o

section Steps

variable {limit : Nat} {w : Sweep}

@[simp] theorem steps_nil : w.steps limit [] = .ok w := rfl

theorem steps_cons (x : Item) (xs : List Item) :
    w.steps limit (x :: xs) =
      match w.step limit x with
      | .ok w' => w'.steps limit xs
      | .error o => .error o := by
  simp only [steps, List.foldlM_cons]
  cases w.step limit x <;> rfl

@[simp] theorem steps_singleton (x : Item) : w.steps limit [x] = w.step limit x := by
  rw [steps_cons]
  cases w.step limit x <;> rfl

theorem steps_append (xs ys : List Item) :
    w.steps limit (xs ++ ys) =
      match w.steps limit xs with
      | .ok w' => w'.steps limit ys
      | .error o => .error o := by
  simp only [steps, List.foldlM_append]
  cases xs.foldlM (step limit) w <;> rfl

end Steps

/-! ## One lexeme -/

end Sweep

/-- The items of a lexeme: a run has one for each character. -/
def Lexeme.items : Lexeme → List Sweep.Item
  | .opening => [.single '{']
  | .closing => [.single '}']
  | .bar => [.single '|']
  | .escape c => [.pair c]
  | .run c cs => (c :: cs).map .single

namespace Sweep

theorem items_cons {c : Char} (h : c ≠ '\\') (cs : List Char) :
    items (c :: cs) = .single c :: items cs := by
  cases cs with
  | nil => rfl
  | cons e cs => rw [items, if_neg h]

theorem items_append {cs : List Char} (h : ∀ c ∈ cs, c ≠ '\\') (rest : List Char) :
    items (cs ++ rest) = cs.map .single ++ items rest := by
  induction cs with
  | nil => rfl
  | cons c cs ih =>
    rw [List.cons_append, items_cons (h c (by simp)), ih fun e he => h e (by simp [he])]
    rfl

theorem items_of_reads {d : Nat} {cs rest : List Char} {x : Lexeme} (h : Reads d cs x rest) :
    items cs = x.items ++ items rest := by
  cases h with
  | opening => exact items_cons (by decide) _
  | closing => exact items_cons (by decide) _
  | bar _ => exact items_cons (by decide) _
  | escape => rw [items, if_pos rfl]; rfl
  | @run c cs text rest h _ htext =>
    rw [htext]
    exact items_append (fun e he heq => h e he (.inr (.inr (.inl heq)))) rest

theorem step_plain {limit : Nat} {w : Sweep} {c : Char} (h : ¬ Stops w.opens.length c) :
    w.step limit (.single c) = .ok ⟨w.mark.next c, w.opens, none⟩ := by
  have h₁ : Item.single c ≠ .single '{' := fun he => h (.inl (Item.single.inj he))
  have h₂ : Item.single c ≠ .single '}' := fun he => h (.inr (.inl (Item.single.inj he)))
  have h₃ : ¬ (Item.single c = .single '|' ∧ w.opens ≠ []) := by
    rintro ⟨he, hne⟩
    exact h (.inr (.inr (.inr ⟨Item.single.inj he, List.length_pos_iff.2 hne⟩)))
  rw [step, if_neg h₁, if_neg h₂, if_neg h₃]
  rfl

/-- A run of plain characters is swept over like one of them. -/
theorem steps_plain {limit : Nat} {w : Sweep} {c : Char} {cs : List Char}
    (h : ∀ e ∈ c :: cs, ¬ Stops w.opens.length e) :
    w.steps limit ((c :: cs).map .single) = .ok ⟨w.mark.past (c :: cs), w.opens, none⟩ := by
  induction cs generalizing c w with
  | nil =>
    rw [List.map_singleton, steps_singleton]
    exact step_plain (h c (by simp))
  | cons e cs ih =>
    rw [List.map_cons, steps_cons, step_plain (h c (by simp))]
    exact ih (w := ⟨w.mark.next c, w.opens, none⟩) fun e' he => h e' (List.mem_cons_of_mem _ he)

end Sweep
end Spintax
