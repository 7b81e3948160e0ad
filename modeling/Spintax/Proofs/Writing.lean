import Spintax.Proofs.Joining
import Spintax.Proofs.Shifts

/-!
# Spintax.Proofs.Writing

Trees written as templates. Every character with a meaning is escaped, and all others are written
as they are. A text with escapes is read back in several pieces, and texts next to each other as
one, so the template compiles to the tree it was written from once such texts are joined.

* `Tree.written`: the template.
* `Lexeme.merge`: lexemes with all runs next to each other put together.
* `Sweep.Passes`: nothing is wrong with some items, and they leave no block and no option open.
* `compile_written`: what the template of a tree compiles to, and what that tree means.
-/

namespace Spintax

/-! ## The template of a tree -/

namespace Lexeme

/-- A character of a text, on its own. -/
def ofChar (c : Char) : Lexeme :=
  if c ∈ Escape.literals then .escape c else .run c []

theorem symbol_ofChar (c : Char) : (ofChar c).symbol = .text (String.ofList [c]) := by
  unfold ofChar
  split
  · rename_i h
    simp only [symbol, kind, value, Escape.resolve_of_mem h]
  · rfl

/-- It can stand anywhere. -/
theorem fits_ofChar (d : Nat) (c : Char) : (ofChar c).Fits d := by
  unfold ofChar
  split
  · trivial
  · rename_i h
    intro e he
    obtain rfl := List.mem_singleton.1 he
    rintro (hs | hs | hs | ⟨hs, -⟩)
    all_goals
      rw [hs] at h
      exact h (by decide)

end Lexeme

namespace Symbol

def lexemes : Symbol → List Lexeme
  | .opening => [.opening]
  | .closing => [.closing]
  | .bar => [.bar]
  | .text content => content.toList.map Lexeme.ofChar

end Symbol

namespace Tree

def lexemes (t : Tree) : List Lexeme :=
  t.symbols.flatMap Symbol.lexemes

/-- The tree as a template. -/
def written (t : Tree) : String :=
  String.ofList (t.lexemes.flatMap Lexeme.chars)

end Tree

/-! ## Runs put together -/

namespace Lexeme

def fuse : Lexeme → List Lexeme → List Lexeme
  | .run c cs, .run e es :: xs => .run c (cs ++ e :: es) :: xs
  | x, xs => x :: xs

def merge (xs : List Lexeme) : List Lexeme :=
  xs.foldr fuse []

theorem merge_cons (x : Lexeme) (xs : List Lexeme) : merge (x :: xs) = fuse x (merge xs) := rfl

theorem chars_fuse (x : Lexeme) (xs : List Lexeme) :
    (fuse x xs).flatMap chars = x.chars ++ xs.flatMap chars := by
  unfold fuse
  split
  · simp [chars]
  · rfl

theorem chars_merge (xs : List Lexeme) : (merge xs).flatMap chars = xs.flatMap chars := by
  induction xs with
  | nil => rfl
  | cons x xs ih => rw [merge_cons, chars_fuse, ih, List.flatMap_cons]

theorem items_fuse (x : Lexeme) (xs : List Lexeme) :
    (fuse x xs).flatMap items = x.items ++ xs.flatMap items := by
  unfold fuse
  split
  · simp [items]
  · rfl

theorem items_merge (xs : List Lexeme) : (merge xs).flatMap items = xs.flatMap items := by
  induction xs with
  | nil => rfl
  | cons x xs ih => rw [merge_cons, items_fuse, ih, List.flatMap_cons]

theorem symbols_fuse (x : Lexeme) (xs : List Lexeme) :
    Symbol.joinAll ((fuse x xs).map symbol) =
      Symbol.join x.symbol (Symbol.joinAll (xs.map symbol)) := by
  unfold fuse
  split
  · rename_i c cs e es xs
    rw [List.map_cons, Symbol.joinAll_cons, symbol_run_append, ← Symbol.join_join]
    rfl
  · rfl

theorem symbols_merge (xs : List Lexeme) :
    Symbol.joinAll ((merge xs).map symbol) = Symbol.joinAll (xs.map symbol) := by
  induction xs with
  | nil => rfl
  | cons x xs ih => rw [merge_cons, symbols_fuse, ih, List.map_cons, Symbol.joinAll_cons]

end Lexeme

theorem cut_fuse {d : Nat} {x : Lexeme} {xs : List Lexeme} (hx : x.Fits d)
    (h : Cut (x.depth d) xs) : Cut d (x.fuse xs) := by
  by_cases hrun : x.isRun
  · obtain ⟨c, cs, rfl⟩ := Lexeme.exists_of_isRun hrun
    cases xs with
    | nil => exact ⟨⟨hx, trivial⟩, .singleton _⟩
    | cons y ys =>
      cases y with
      | run e es => exact cut_run hx h
      | _ =>
        refine ⟨⟨hx, h.fits⟩, List.isChain_cons_cons.2 ⟨?_, h.apart⟩⟩
        rintro ⟨-, hy⟩
        cases hy
  · have hfuse : x.fuse xs = x :: xs := by
      cases x with
      | run c cs => exact absurd rfl hrun
      | _ => rfl
    rw [hfuse]
    exact cut_cons hx hrun h

theorem cut_merge {d : Nat} {xs : List Lexeme} (h : Fitting d xs) : Cut d (Lexeme.merge xs) := by
  induction xs generalizing d with
  | nil => exact ⟨trivial, .nil⟩
  | cons x xs ih => exact cut_fuse h.1 (ih h.2)

/-! ## The lexemes of a tree -/

section Lexemes

theorem fitting_text {k : Nat} (cs : List Char) {xs : List Lexeme} (h : Fitting k xs) :
    Fitting k (cs.map Lexeme.ofChar ++ xs) := by
  induction cs with
  | nil => exact h
  | cons c cs ih =>
    have hdepth : (Lexeme.ofChar c).depth k = k := by
      unfold Lexeme.ofChar
      split <;> rfl
    refine ⟨Lexeme.fits_ofChar k c, ?_⟩
    rw [hdepth]
    exact ih

/-- A word that divides no blocks but its own can be written as it is. -/
theorem fitting_symbols {w : List Symbol} {k j : Nat}
    (h : level k (w.map Symbol.kind) = some j) : Fitting k (w.flatMap Symbol.lexemes) := by
  induction w generalizing k with
  | nil => trivial
  | cons x w ih =>
    obtain ⟨i, hx, hw⟩ := level_cons_eq_some.1 h
    have hrest := ih hw
    cases x with
    | text content =>
      cases hx
      exact fitting_text content.toList hrest
    | opening =>
      cases hx
      exact ⟨trivial, hrest⟩
    | closing =>
      simp only [Symbol.kind, Token.Kind.level] at hx
      split at hx
      · cases hx
      · cases hx
        exact ⟨trivial, hrest⟩
    | bar =>
      simp only [Symbol.kind, Token.Kind.level] at hx
      split at hx
      · cases hx
      · rename_i hk
        cases hx
        exact ⟨Nat.pos_of_ne_zero hk, hrest⟩

theorem joinAll_text {cs : List Char} (h : cs ≠ []) (w : List Symbol) :
    Symbol.joinAll ((cs.map Lexeme.ofChar).map Lexeme.symbol ++ w) =
      Symbol.join (.text (String.ofList cs)) (Symbol.joinAll w) := by
  induction cs with
  | nil => exact absurd rfl h
  | cons c cs ih =>
    rw [List.map_cons, List.map_cons, List.cons_append, Symbol.joinAll_cons, Lexeme.symbol_ofChar]
    cases cs with
    | nil => rfl
    | cons e es =>
      rw [ih (by simp), Symbol.join_join, ← String.ofList_append]
      rfl

/-- The pieces of all texts are joined to the texts again, if none of those is empty. -/
theorem joinAll_lexemes {w : List Symbol} (h : .text "" ∉ w) :
    Symbol.joinAll ((w.flatMap Symbol.lexemes).map Lexeme.symbol) = Symbol.joinAll w := by
  induction w with
  | nil => rfl
  | cons x w ih =>
    have hrest := ih fun hw => h (List.mem_cons_of_mem _ hw)
    rw [List.flatMap_cons, List.map_append]
    cases x with
    | text content =>
      have hne : content.toList ≠ [] := by
        intro hnil
        have hempty : content = "" := by simpa using hnil
        exact h (by simp [hempty])
      rw [Symbol.lexemes, joinAll_text hne, hrest, String.ofList_toList, Symbol.joinAll_cons]
    | _ =>
      show Symbol.joinAll (_ :: (w.flatMap Symbol.lexemes).map Lexeme.symbol) = _
      rw [Symbol.joinAll_cons, hrest, Symbol.joinAll_cons]
      rfl

end Lexemes

/-! ## Nothing is wrong with it -/

namespace Sweep

variable {limit : Nat} {w : Sweep}

/-- Nothing is wrong with the items, and a sweep over them leaves the same blocks open as before
and no option without a part. -/
def Passes (limit : Nat) (w : Sweep) (xs : List Item) : Prop :=
  ∃ w', w.steps limit xs = .ok w' ∧ w'.opens = w.opens ∧ w'.fresh = none

theorem Passes.nil (h : w.fresh = none) : Passes limit w [] :=
  ⟨w, rfl, rfl, h⟩

theorem Passes.append {xs ys : List Item} (h : Passes limit w xs)
    (h' : ∀ w' : Sweep, w'.opens = w.opens → w'.fresh = none → Passes limit w' ys) :
    Passes limit w (xs ++ ys) := by
  obtain ⟨w₁, h₁, ho, hf⟩ := h
  obtain ⟨w₂, h₂, ho', hf'⟩ := h' w₁ ho hf
  refine ⟨w₂, ?_, ho'.trans ho, hf'⟩
  rw [steps_append, h₁]
  exact h₂

theorem passes_char (c : Char) : Passes limit w (Lexeme.ofChar c).items := by
  unfold Lexeme.ofChar
  split
  · exact ⟨⟨w.mark.past ['\\', c], w.opens, none⟩, rfl, rfl, rfl⟩
  · rename_i h
    have hplain : ¬ Stops w.opens.length c := by
      have hfits := Lexeme.fits_ofChar w.opens.length c
      rw [Lexeme.ofChar, if_neg h] at hfits
      exact hfits c (by simp)
    refine ⟨⟨w.mark.next c, w.opens, none⟩, ?_, rfl, rfl⟩
    rw [Lexeme.items, List.map_singleton, steps_singleton]
    exact step_plain hplain

theorem passes_chars {cs : List Char} (h : w.fresh = none ∨ cs ≠ []) :
    Passes limit w ((cs.map Lexeme.ofChar).flatMap Lexeme.items) := by
  induction cs generalizing w with
  | nil => exact .nil (h.resolve_right fun hne => hne rfl)
  | cons c cs ih => exact (passes_char c).append fun w' _ hf => ih (.inl hf)

theorem step_opening (h : w.opens.length + 1 ≤ limit) :
    w.step limit (.single '{') = .ok ⟨w.mark.past ['{'], w.mark :: w.opens, w.mark⟩ := by
  have hl : ¬ limit < w.opens.length + 1 := Nat.not_lt.2 h
  rw [step, if_pos rfl, if_neg hl]
  rfl

theorem step_bar (ho : w.opens ≠ []) (hf : w.fresh = none) :
    w.step limit (.single '|') = .ok ⟨w.mark.past ['|'], w.opens, w.mark⟩ := by
  simp [step, ho, hf, Item.chars]

theorem step_closing (ho : w.opens ≠ []) (hf : w.fresh = none) :
    w.step limit (.single '}') = .ok ⟨w.mark.past ['}'], w.opens.tail, none⟩ := by
  simp [step, ho, hf, Item.chars]

end Sweep

/-- The items of a word as it is written. -/
def Symbol.items (w : List Symbol) : List Sweep.Item :=
  (w.flatMap Symbol.lexemes).flatMap Lexeme.items

theorem Symbol.items_append (v w : List Symbol) :
    Symbol.items (v ++ w) = Symbol.items v ++ Symbol.items w := by
  rw [Symbol.items, List.flatMap_append, List.flatMap_append]
  rfl

namespace Tree

open Sweep (Passes)

/-- With room for `n` more blocks, nothing is wrong with the tree as it is written. -/
def PassesAt (limit n : Nat) (t : Tree) : Prop :=
  .text "" ∉ t.symbols → ∀ w : Sweep, w.opens.length + n ≤ limit →
    Passes limit w (Symbol.items t.symbols)

variable {limit n : Nat} {w : Sweep}

theorem passes_all {ts : List Tree} (h : ∀ t ∈ ts, t.PassesAt limit n)
    (hne : .text "" ∉ symbolsAll ts) (hroom : w.opens.length + n ≤ limit)
    (hstart : w.fresh = none ∨ ts ≠ []) : Passes limit w (Symbol.items (symbolsAll ts)) := by
  induction ts generalizing w with
  | nil => exact .nil (hstart.resolve_right fun hne => hne rfl)
  | cons t ts ih =>
    rw [symbolsAll] at hne ⊢
    rw [Symbol.items_append]
    have ht := h t (by simp) (fun hm => hne (List.mem_append_left _ hm)) w hroom
    refine ht.append fun w' ho hf => ?_
    exact ih (fun u hu => h u (by simp [hu])) (fun hm => hne (List.mem_append_right _ hm))
      (by rw [ho]; exact hroom) (.inl hf)

theorem passes_barred {ts : List Tree} (h : ∀ t ∈ ts, t.PassesAt limit n)
    (hne : .text "" ∉ symbolsBarred ts) (hroom : w.opens.length + n ≤ limit) (ho : w.opens ≠ [])
    (hf : w.fresh = none) : Passes limit w (Symbol.items (symbolsBarred ts)) := by
  induction ts generalizing w with
  | nil => exact .nil hf
  | cons t ts ih =>
    rw [symbolsBarred] at hne ⊢
    have hne' : .text "" ∉ t.symbols ++ symbolsBarred ts :=
      fun hm => hne (List.mem_cons_of_mem _ hm)
    let w₁ : Sweep := ⟨w.mark.past ['|'], w.opens, w.mark⟩
    have ht := h t (by simp) (fun hm => hne' (List.mem_append_left _ hm)) w₁ hroom
    have hboth : Passes limit w₁ (Symbol.items (t.symbols ++ symbolsBarred ts)) := by
      rw [Symbol.items_append]
      refine ht.append fun w' ho' hf' => ?_
      exact ih (fun u hu => h u (by simp [hu])) (fun hm => hne' (List.mem_append_right _ hm))
        (by rw [ho']; exact hroom) (by rw [ho']; exact ho) hf'
    obtain ⟨w', hsteps, hopens, hfresh⟩ := hboth
    refine ⟨w', ?_, hopens, hfresh⟩
    show w.steps limit (.single '|' :: Symbol.items (t.symbols ++ symbolsBarred ts)) = _
    rw [Sweep.steps_cons, Sweep.step_bar ho hf]
    exact hsteps

theorem passes_shape (t : Tree) :
    (∀ n, t.IsPattern n → t.PassesAt limit n) ∧ ∀ n, t.IsPart n → t.PassesAt limit n := by
  refine shape_induct (P := PassesAt limit) (Q := PassesAt limit) ?_ ?_ ?_ t
  · intro n content l hne w _
    have hcontent : content.toList ≠ [] := by
      intro hnil
      have hempty : content = "" := by simpa using hnil
      exact hne (by simp [symbols, hempty])
    show Passes limit w (Symbol.items [.text content])
    rw [Symbol.items, List.flatMap_singleton]
    exact Sweep.passes_chars (.inr hcontent)
  · intro n first rest l h hne w hroom
    exact passes_all h hne hroom (.inr (by simp))
  · intro n first rest l hf hr hne w hroom
    rw [symbols] at hne ⊢
    have hne₁ : .text "" ∉ first.symbols := fun hm => hne (by simp [hm])
    have hne₂ : .text "" ∉ symbolsBarred rest := fun hm => hne (by simp [hm])
    let w₁ : Sweep := ⟨w.mark.past ['{'], w.mark :: w.opens, w.mark⟩
    have hroom₁ : w₁.opens.length + n ≤ limit := by
      show (w.mark :: w.opens).length + n ≤ limit
      rw [List.length_cons]
      omega
    have hinside : Passes limit w₁ (Symbol.items (first.symbols ++ symbolsBarred rest)) := by
      rw [Symbol.items_append]
      refine (hf hne₁ w₁ hroom₁).append fun w' ho hfresh => ?_
      exact passes_barred hr hne₂ (by rw [ho]; exact hroom₁) (by rw [ho]; simp [w₁]) hfresh
    obtain ⟨w₂, hsteps, hopens, hfresh⟩ := hinside
    refine ⟨⟨w₂.mark.past ['}'], w₂.opens.tail, none⟩, ?_, ?_, rfl⟩
    · show w.steps limit (.single '{' ::
        Symbol.items (first.symbols ++ symbolsBarred rest ++ [.closing])) = _
      rw [Sweep.steps_cons, Sweep.step_opening (by omega), Symbol.items_append]
      simp only
      rw [Sweep.steps_append, hsteps]
      exact (Sweep.steps_singleton _).trans
        (Sweep.step_closing (by rw [hopens]; simp [w₁]) hfresh)
    · show w₂.opens.tail = w.opens
      rw [hopens]
      rfl

theorem text_mem_barred {a : String} {ts : List Tree} :
    .text a ∈ symbolsBarred ts ↔ ∃ u ∈ ts, .text a ∈ u.symbols := by
  induction ts with
  | nil => simp [symbolsBarred]
  | cons u ts ih => simp [symbolsBarred, ih]

theorem text_mem_symbols {a : String} {t : Tree} :
    .text a ∈ t.symbols ↔ (∃ l, t = .text a l) ∨ ∃ c ∈ t.children, .text a ∈ c.symbols := by
  cases t with
  | text b l => simp [symbols, children, eq_comm]
  | pattern first rest l => simp [symbols, children, symbolsAll_eq]
  | block first rest l => simp [symbols, children, text_mem_barred]
  | bare l => simp [symbols, children]
  | value v => simp [symbols, children]

theorem text_mem_symbols_iff_within {a : String} {t : Tree} :
    .text a ∈ t.symbols ↔ ∃ l, (Tree.text a l).Within t := by
  constructor
  · intro h
    induction t using children_induct with
    | step t ih =>
      rcases text_mem_symbols.1 h with ⟨l, rfl⟩ | ⟨c, hc, hm⟩
      · exact ⟨l, .self⟩
      · obtain ⟨l, hwithin⟩ := ih c hc hm
        exact ⟨l, .child hc hwithin⟩
  · rintro ⟨l, h⟩
    induction h with
    | self => simp [symbols]
    | child hc _ ih => exact text_mem_symbols.2 (.inr ⟨_, hc, ih⟩)

end Tree

/-! ## What the template compiles to -/

namespace Template

open Evaluation (denote evaluate)

variable {limit : Nat} {t : Tree}

theorem cut_written (ht : t.IsPattern limit) :
    Cut 0 (Lexeme.merge t.lexemes) ∧
      t.written.toList = (Lexeme.merge t.lexemes).flatMap Lexeme.chars := by
  refine ⟨cut_merge (fitting_symbols (Tree.level_symbols (.inl ht) 0)), ?_⟩
  rw [Lexeme.chars_merge, Tree.written, String.toList_ofList]

theorem written_ne_nil (ht : t.IsPattern limit) (hne : .text "" ∉ t.symbols) :
    t.written.toList ≠ [] := by
  intro hnil
  rw [Tree.written, String.toList_ofList, List.flatMap_eq_nil_iff] at hnil
  have hlexemes : t.lexemes = [] :=
    List.eq_nil_iff_forall_not_mem.2 fun x hx => x.chars_ne_nil (hnil x hx)
  have hjoined : Symbol.joinAll t.symbols = [] := by
    rw [← joinAll_lexemes hne, ← Tree.lexemes, hlexemes]
    rfl
  cases hs : t.symbols with
  | nil => exact ht.symbols_ne_nil hs
  | cons x w =>
    rw [hs] at hjoined
    exact Symbol.join_ne_nil x _ hjoined

theorem verdict_written (ht : t.IsPattern limit) (hne : .text "" ∉ t.symbols) :
    Sweep.verdict limit t.written.toList = none := by
  obtain ⟨hcut, htext⟩ := cut_written ht
  have hitems : Sweep.items t.written.toList = Symbol.items t.symbols := by
    rw [htext, Sweep.items_flatMap_chars hcut, Lexeme.items_merge]
    rfl
  obtain ⟨w, hsteps, hopens, hfresh⟩ :=
    (Tree.passes_shape t).1 limit ht hne {} (Nat.zero_add limit).le
  rw [← hitems] at hsteps
  have hstart : w.mark.offset ≠ 0 := Sweep.offset_of_steps hsteps (written_ne_nil ht hne)
  rw [Sweep.verdict, hsteps]
  simp only [Sweep.finish, if_neg hstart, hfresh, hopens]

/-- Any tree of the shape of the grammar can be written as a template, if no text in it is empty.
What the template compiles to differs from it in the joints between texts only, and means the same:
the same text or fault, the same bounds asked for, and the same source afterwards. -/
theorem compile_written (file : Option String) (ht : t.IsPattern limit)
    (hne : ∀ l, ¬ (Tree.text "" l).Within t) :
    ∃ t', (compile limit file t.written).value = .ok t' ∧ t'.joined.same t.joined ∧
      ∀ (σ ε : Type) (draw : Source σ ε) (s : σ),
        denote draw t' s = denote draw t s ∧ evaluate draw t' s = evaluate draw t s := by
  have hne' : .text "" ∉ t.symbols := by
    intro hm
    obtain ⟨l, hl⟩ := Tree.text_mem_symbols_iff_within.1 hm
    exact hne l hl
  obtain ⟨hcut, htext⟩ := cut_written ht
  have hlexed : Lexed 0 t.written.toList (Lexeme.merge t.lexemes) [] :=
    lexed_iff_cut.2 ⟨htext, hcut⟩
  have hreport := (Parser.parse_told hlexed limit file).report
  rw [verdict_written ht hne', ← compile_of_lexed hlexed] at hreport
  obtain ⟨t', ht'⟩ := hreport
  obtain ⟨xs, hx⟩ := exists_cut_of_compile ht'
  have hxs : xs = Lexeme.merge t.lexemes :=
    (lexed_unique (lexed_iff_cut.2 ⟨hx.text_eq, hx.cut⟩) hlexed).1
  have hsymbols : Symbol.joinAll t'.symbols = Symbol.joinAll t.symbols := by
    rw [← hx.symbols_eq, hxs, Lexeme.symbols_merge, Tree.lexemes, joinAll_lexemes hne']
  refine ⟨t', ht', Tree.same_joined hx.isPattern ht hsymbols, ?_⟩
  intro σ ε draw s
  have hmeaning : denote draw t' = denote draw t :=
    Evaluation.denote_eq_of_joinAll hx.isPattern ht hsymbols
  rw [Evaluation.evaluate_eq, Evaluation.evaluate_eq, hmeaning]
  exact ⟨rfl, rfl⟩

/-- Two texts that meet in the middle of a run, and one that is escaped from end to end. -/
theorem compile_written_escaped :
    let t : Tree := .pattern (.text "\x7ba" .unknown) [.text "b\n" .unknown,
      .block (.pattern (.text "|\\" .unknown) [] .unknown) [] .unknown] .unknown
    t.IsPattern 1 ∧ (∀ l, ¬ (Tree.text "" l).Within t) ∧
      t.written = "\\\x7bab\n\x7b\\|\\\\\x7d" ∧
      ∃ t', (compile 1 none t.written).value = .ok t' ∧ t'.joined.same t.joined := by
  intro t
  have ht : t.IsPattern 1 := by
    simp [t, Tree.IsPattern, Tree.IsPart, Tree.AreParts, Tree.ArePatterns]
  have hne : ∀ l, ¬ (Tree.text "" l).Within t := by
    intro l hl
    have hm : .text "" ∈ t.symbols := Tree.text_mem_symbols_iff_within.2 ⟨l, hl⟩
    simp [t, Tree.symbols, Tree.symbolsAll, Tree.symbolsBarred] at hm
  obtain ⟨t', ht', hsame, -⟩ := compile_written none ht hne
  exact ⟨ht, hne, by decide, t', ht', hsame⟩

end Template
end Spintax
