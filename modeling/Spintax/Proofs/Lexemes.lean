import Spintax.Scanner

/-!
# Spintax.Proofs.Lexemes

Template text cut into lexemes, by rules that know how many blocks are open and nothing else.

* `Lexeme`: a brace, a bar, an escape, or a run of plain characters.
* `Reads d cs x rest`: with `d` blocks open, `cs` starts with the lexeme `x`, and `rest` is behind.
  `reads_unique` and `exists_reads`: there is one, unless nothing or a lone backslash is left.
* `Lexed d cs xs tail`: all of `cs` is cut into `xs`, up to a lone backslash in `tail`.
  `lexed_unique` and `exists_lexed`: in one way.
* `endsLone`: whether there is such a backslash.
* `exists_of_infix_place`: tokens in a row come from lexemes in a row.
-/

namespace Spintax

/-- Text that is read as one token. -/
inductive Lexeme where
  | opening
  | closing
  | bar
  | escape (c : Char)
  | run (c : Char) (cs : List Char)
deriving DecidableEq

namespace Lexeme

def chars : Lexeme → List Char
  | .opening => ['{']
  | .closing => ['}']
  | .bar => ['|']
  | .escape c => ['\\', c]
  | .run c cs => c :: cs

def kind : Lexeme → Token.Kind
  | .opening => .opening
  | .closing => .closing
  | .bar => .bar
  | .escape _ | .run _ _ => .text

/-- What the token says. -/
def value : Lexeme → List Char
  | .escape c => Escape.resolve c
  | x => x.chars

/-- The number of open blocks after the lexeme. A closing brace outside all blocks closes none. -/
def depth (d : Nat) : Lexeme → Nat
  | .opening => d + 1
  | .closing => d - 1
  | _ => d

def token (file : Option String) (m : Mark) (x : Lexeme) : Token :=
  ⟨x.kind, String.ofList x.value, m.line, m.column, m.offset, (m.past x.chars).offset, file⟩

theorem chars_ne_nil (x : Lexeme) : x.chars ≠ [] := by
  cases x <;> simp [chars]

end Lexeme

/-- The tokens of lexemes that stand one behind the other from `m` on. -/
def place (file : Option String) (m : Mark) : List Lexeme → List Token
  | [] => []
  | x :: xs => x.token file m :: place file (m.past x.chars) xs

def depthAfter (d : Nat) (xs : List Lexeme) : Nat :=
  xs.foldl Lexeme.depth d

@[simp] theorem depthAfter_nil (d : Nat) : depthAfter d [] = d := rfl

@[simp] theorem depthAfter_cons (d : Nat) (x : Lexeme) (xs : List Lexeme) :
    depthAfter d (x :: xs) = depthAfter (x.depth d) xs := rfl

/-- The characters that end a run of plain ones. -/
def Stops (d : Nat) (c : Char) : Prop :=
  c = '{' ∨ c = '}' ∨ c = '\\' ∨ (c = '|' ∧ 0 < d)

instance (d : Nat) : DecidablePred (Stops d) :=
  fun c => inferInstanceAs (Decidable (c = '{' ∨ c = '}' ∨ c = '\\' ∨ (c = '|' ∧ 0 < d)))

/-- How a text starts. A run is as long as it can be. -/
inductive Reads (d : Nat) : List Char → Lexeme → List Char → Prop where
  | opening {rest : List Char} : Reads d ('{' :: rest) .opening rest
  | closing {rest : List Char} : Reads d ('}' :: rest) .closing rest
  | bar {rest : List Char} (h : 0 < d) : Reads d ('|' :: rest) .bar rest
  | escape {c : Char} {rest : List Char} : Reads d ('\\' :: c :: rest) (.escape c) rest
  | run {c : Char} {cs text rest : List Char} (h : ∀ e ∈ c :: cs, ¬ Stops d e)
      (hmax : ∀ e, rest.head? = some e → Stops d e) (htext : text = cs ++ rest) :
      Reads d (c :: text) (.run c cs) rest

namespace Reads

variable {d : Nat} {cs rest : List Char} {x : Lexeme}

theorem chars_append (h : Reads d cs x rest) : cs = x.chars ++ rest := by
  cases h with
  | run _ _ htext => rw [htext]; rfl
  | _ => rfl

theorem length_lt (h : Reads d cs x rest) : rest.length < cs.length := by
  have := List.length_pos_iff.2 x.chars_ne_nil
  rw [h.chars_append, List.length_append]
  omega

end Reads

theorem takeWhile_append_of_stop {p : Char → Bool} {cs rest : List Char}
    (h : ∀ e ∈ cs, p e = true) (hmax : ∀ e, rest.head? = some e → p e = false) :
    (cs ++ rest).takeWhile p = cs ∧ (cs ++ rest).dropWhile p = rest := by
  have ht : rest.takeWhile p = [] ∧ rest.dropWhile p = rest := by
    cases rest with
    | nil => exact ⟨rfl, rfl⟩
    | cons e rest => simp [hmax e rfl]
  rw [List.takeWhile_append_of_pos h, List.dropWhile_append_of_pos h, ht.1, ht.2]
  simp

theorem run_unique {d : Nat} {cs cs' rest rest' : List Char} (h : ∀ e ∈ cs, ¬ Stops d e)
    (h' : ∀ e ∈ cs', ¬ Stops d e) (hmax : ∀ e, rest.head? = some e → Stops d e)
    (hmax' : ∀ e, rest'.head? = some e → Stops d e) (heq : cs ++ rest = cs' ++ rest') :
    cs = cs' ∧ rest = rest' := by
  let p : Char → Bool := fun e => ¬ Stops d e
  have h₁ := takeWhile_append_of_stop (p := p) (by simpa [p] using h) (by simpa [p] using hmax)
  have h₂ := takeWhile_append_of_stop (p := p) (by simpa [p] using h') (by simpa [p] using hmax')
  rw [heq] at h₁
  exact ⟨h₁.1.symm.trans h₂.1, h₁.2.symm.trans h₂.2⟩

theorem reads_unique {d : Nat} {cs rest rest' : List Char} {x x' : Lexeme}
    (h : Reads d cs x rest) (h' : Reads d cs x' rest') : x = x' ∧ rest = rest' := by
  cases h with
  | opening =>
    cases h' with
    | opening => exact ⟨rfl, rfl⟩
    | run h _ _ => exact absurd (h '{' (by simp)) (by simp [Stops])
  | closing =>
    cases h' with
    | closing => exact ⟨rfl, rfl⟩
    | run h _ _ => exact absurd (h '}' (by simp)) (by simp [Stops])
  | bar hd =>
    cases h' with
    | bar _ => exact ⟨rfl, rfl⟩
    | run h _ _ => exact absurd (h '|' (by simp)) (by simp [Stops, hd])
  | escape =>
    cases h' with
    | escape => exact ⟨rfl, rfl⟩
    | run h _ _ => exact absurd (h '\\' (by simp)) (by simp [Stops])
  | run h hmax htext =>
    cases h' with
    | opening => exact absurd (h '{' (by simp)) (by simp [Stops])
    | closing => exact absurd (h '}' (by simp)) (by simp [Stops])
    | bar hd => exact absurd (h '|' (by simp)) (by simp [Stops, hd])
    | escape => exact absurd (h '\\' (by simp)) (by simp [Stops])
    | run h' hmax' htext' =>
      obtain ⟨rfl, rfl⟩ := run_unique (fun e he => h e (List.mem_cons_of_mem _ he))
        (fun e he => h' e (List.mem_cons_of_mem _ he)) hmax hmax' (htext.symm.trans htext')
      exact ⟨rfl, rfl⟩

/-- Text starts with a lexeme, unless it is a lone backslash. -/
theorem exists_reads (d : Nat) (c : Char) (cs : List Char) :
    (c = '\\' ∧ cs = []) ∨ ∃ x rest, Reads d (c :: cs) x rest := by
  by_cases hc : Stops d c
  · rcases hc with rfl | rfl | rfl | ⟨rfl, hd⟩
    · exact .inr ⟨_, _, .opening⟩
    · exact .inr ⟨_, _, .closing⟩
    · cases cs with
      | nil => exact .inl ⟨rfl, rfl⟩
      | cons e rest => exact .inr ⟨_, _, .escape⟩
    · exact .inr ⟨_, _, .bar hd⟩
  · let p : Char → Bool := fun e => ¬ Stops d e
    refine .inr ⟨.run c (cs.takeWhile p), cs.dropWhile p, ?_⟩
    refine .run ?_ ?_ List.takeWhile_append_dropWhile.symm
    · intro e he
      rcases List.mem_cons.1 he with rfl | he
      · exact hc
      · simpa [p] using List.all_eq_true.1 List.all_takeWhile e he
    · intro e he
      have := List.head?_dropWhile_not p cs
      rw [he] at this
      simpa [p] using this

/-! ## Whole texts -/

/-- Lexemes that make up a text, but for a lone backslash at its end. -/
inductive Lexed : Nat → List Char → List Lexeme → List Char → Prop where
  | nil {d : Nat} : Lexed d [] [] []
  | lone {d : Nat} : Lexed d ['\\'] [] ['\\']
  | cons {d : Nat} {cs rest tail : List Char} {x : Lexeme} {xs : List Lexeme} :
      Reads d cs x rest → Lexed (x.depth d) rest xs tail → Lexed d cs (x :: xs) tail

theorem exists_lexed (d : Nat) (cs : List Char) : ∃ xs tail, Lexed d cs xs tail := by
  induction h : cs.length using Nat.strongRecOn generalizing d cs with
  | ind n ih =>
    cases cs with
    | nil => exact ⟨[], [], .nil⟩
    | cons c cs =>
      rcases exists_reads d c cs with ⟨rfl, rfl⟩ | ⟨x, rest, hx⟩
      · exact ⟨[], _, .lone⟩
      · have hlt := hx.length_lt
        rw [h] at hlt
        obtain ⟨xs, tail, hxs⟩ := ih _ hlt (x.depth d) rest rfl
        exact ⟨x :: xs, tail, .cons hx hxs⟩

theorem lexed_unique {d : Nat} {cs tail tail' : List Char} {xs xs' : List Lexeme}
    (h : Lexed d cs xs tail) (h' : Lexed d cs xs' tail') : xs = xs' ∧ tail = tail' := by
  induction h generalizing xs' with
  | nil =>
    cases h' with
    | nil => exact ⟨rfl, rfl⟩
    | cons hx _ => cases hx
  | lone =>
    cases h' with
    | lone => exact ⟨rfl, rfl⟩
    | cons hx _ =>
      cases hx with
      | run h _ _ => exact absurd (h '\\' (by simp)) (by simp [Stops])
  | cons hx _ ih =>
    cases h' with
    | nil => cases hx
    | lone =>
      cases hx with
      | run h _ _ => exact absurd (h '\\' (by simp)) (by simp [Stops])
    | cons hx' hxs' =>
      obtain ⟨rfl, rfl⟩ := reads_unique hx hx'
      obtain ⟨rfl, rfl⟩ := ih hxs'
      exact ⟨rfl, rfl⟩

theorem Lexed.chars_append {d : Nat} {cs tail : List Char} {xs : List Lexeme}
    (h : Lexed d cs xs tail) : cs = xs.flatMap Lexeme.chars ++ tail := by
  induction h with
  | nil => rfl
  | lone => rfl
  | cons hx _ ih => rw [hx.chars_append, ih, List.flatMap_cons, List.append_assoc]

/-- Whether a text ends in a backslash that is not itself escaped. -/
def endsLone : List Char → Bool
  | [] => false
  | [c] => c = '\\'
  | c :: e :: cs => if c = '\\' then endsLone cs else endsLone (e :: cs)

theorem endsLone_cons {c : Char} (h : c ≠ '\\') (cs : List Char) :
    endsLone (c :: cs) = endsLone cs := by
  cases cs with
  | nil => simp [endsLone, h]
  | cons e cs => simp [endsLone, h]

theorem endsLone_append {cs : List Char} (h : ∀ c ∈ cs, c ≠ '\\') (rest : List Char) :
    endsLone (cs ++ rest) = endsLone rest := by
  induction cs with
  | nil => rfl
  | cons c cs ih =>
    rw [List.cons_append, endsLone_cons (h c (by simp)), ih fun e he => h e (by simp [he])]

theorem Reads.endsLone_eq {d : Nat} {cs rest : List Char} {x : Lexeme} (h : Reads d cs x rest) :
    endsLone cs = endsLone rest := by
  cases h with
  | opening => exact endsLone_cons (by decide) _
  | closing => exact endsLone_cons (by decide) _
  | bar _ => exact endsLone_cons (by decide) _
  | escape => simp [endsLone]
  | @run c cs text rest h _ htext =>
    rw [htext]
    have hplain : ∀ e ∈ c :: cs, e ≠ '\\' :=
      fun e he heq => h e he (.inr (.inr (.inl heq)))
    exact endsLone_append hplain rest

theorem Lexed.tail_eq {d : Nat} {cs tail : List Char} {xs : List Lexeme}
    (h : Lexed d cs xs tail) : tail = if endsLone cs then ['\\'] else [] := by
  induction h with
  | nil => rfl
  | lone => rfl
  | cons hx _ ih => rw [hx.endsLone_eq, ih]

/-- Where no backslash is left alone, nothing is left. -/
theorem exists_lexed_of_clean {cs : List Char} (h : endsLone cs = false) (d : Nat) :
    ∃ xs, Lexed d cs xs [] := by
  obtain ⟨xs, tail, hxs⟩ := exists_lexed d cs
  obtain rfl : tail = [] := by
    rw [hxs.tail_eq, h]
    rfl
  exact ⟨xs, hxs⟩

/-! ## Tokens in a row -/

section Place

variable {file : Option String} {m : Mark} {xs : List Lexeme} {us vs : List Token}

theorem place_append (ys : List Lexeme) :
    place file m (xs ++ ys) =
      place file m xs ++ place file (m.past (xs.flatMap Lexeme.chars)) ys := by
  induction xs generalizing m with
  | nil => rfl
  | cons x xs ih =>
    rw [List.cons_append, place, place, ih, List.flatMap_cons, Mark.past_append, List.cons_append]

theorem append_eq_place (h : us ++ vs = place file m xs) :
    ∃ ys zs, xs = ys ++ zs ∧ us = place file m ys ∧
      vs = place file (m.past (ys.flatMap Lexeme.chars)) zs := by
  induction us generalizing m xs with
  | nil => exact ⟨[], xs, rfl, rfl, h⟩
  | cons u us ih =>
    cases xs with
    | nil => cases h
    | cons x xs =>
      obtain ⟨rfl, hrest⟩ := List.cons.inj h
      obtain ⟨ys, zs, rfl, rfl, rfl⟩ := ih hrest
      refine ⟨x :: ys, zs, rfl, rfl, ?_⟩
      rw [List.flatMap_cons, Mark.past_append]

theorem exists_of_infix_place (h : vs <:+: place file m xs) :
    ∃ before ys after, xs = before ++ ys ++ after ∧
      vs = place file (m.past (before.flatMap Lexeme.chars)) ys := by
  obtain ⟨p, q, h⟩ := h
  rw [List.append_assoc] at h
  obtain ⟨before, rest, rfl, -, hrest⟩ := append_eq_place h
  obtain ⟨ys, after, rfl, hvs, -⟩ := append_eq_place hrest
  exact ⟨before, ys, after, (List.append_assoc _ _ _).symm, hvs⟩

theorem start_of_head? {a : Token} (h : (place file m xs).head? = some a) :
    a.location.start = m.offset := by
  cases xs with
  | nil => cases h
  | cons x xs =>
    cases h
    rfl

theorem stop_of_getLast? {z : Token} (h : (place file m xs).getLast? = some z) :
    z.location.stop = (m.past (xs.flatMap Lexeme.chars)).offset := by
  rcases List.eq_nil_or_concat xs with rfl | ⟨ys, y, rfl⟩
  · cases h
  · rw [List.concat_eq_append, place_append, place, place, List.getLast?_concat] at h
    cases h
    rw [List.concat_eq_append, List.flatMap_append, List.flatMap_singleton, Mark.past_append]
    rfl

theorem stop_ne_zero_of_place {t : Token} (h : t ∈ place file m xs) : t.location.stop ≠ 0 := by
  induction xs generalizing m with
  | nil => cases h
  | cons x xs ih =>
    rcases List.mem_cons.1 h with rfl | h
    · have hlen := List.length_pos_iff.2 x.chars_ne_nil
      show ((m.past x.chars).offset : Int) ≠ 0
      rw [Mark.past_offset]
      omega
    · exact ih h

end Place

end Spintax
