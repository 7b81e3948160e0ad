import Spintax.Chooser
import Spintax.Proofs.Meanings
import Spintax.Proofs.Spelling

/-!
# Spintax.Proofs.Wrapping

Templates put together as the options of one block. Each option is read once more with a block
around it, where a bar that used to be text would divide the block; with no such bar, every option
is read as it was alone.

* `Sweep.BarsInside`: every bar that is not escaped stands in a block of the text's own.
* `fitting_wrapped`: lexemes keep their places under one more block.
* `Tree.nesting`: how many blocks of a tree are open at once.
* `compile_wrapped`: the block of all options, and what running it does.
-/

namespace Spintax

/-! ## One more block around a text -/

namespace Sweep

/-- `d` blocks of the text are open before these items. -/
def BarsInside : Nat → List Item → Prop
  | _, [] => True
  | d, x :: xs =>
    if x = .single '{' then BarsInside (d + 1) xs
    else if x = .single '}' then BarsInside (d - 1) xs
    else (x = .single '|' → 0 < d) ∧ BarsInside d xs

instance BarsInside.decidable : (d : Nat) → (xs : List Item) → Decidable (BarsInside d xs)
  | _, [] => .isTrue trivial
  | d, x :: xs =>
    have := BarsInside.decidable (d + 1) xs
    have := BarsInside.decidable (d - 1) xs
    have := BarsInside.decidable d xs
    inferInstanceAs (Decidable (if x = .single '{' then BarsInside (d + 1) xs
      else if x = .single '}' then BarsInside (d - 1) xs
      else (x = .single '|' → 0 < d) ∧ BarsInside d xs))

theorem barsInside_run {d : Nat} {cs : List Char} {rest : List Item}
    (hcs : ∀ e ∈ cs, ¬ Stops d e) (h : BarsInside d (cs.map .single ++ rest)) :
    (∀ e ∈ cs, e = '|' → 0 < d) ∧ BarsInside d rest := by
  induction cs with
  | nil => exact ⟨by simp, h⟩
  | cons c cs ih =>
    have hc : ¬ Stops d c := hcs c (by simp)
    have h₁ : Item.single c ≠ .single '{' := fun he => hc (.inl (Item.single.inj he))
    have h₂ : Item.single c ≠ .single '}' := fun he => hc (.inr (.inl (Item.single.inj he)))
    rw [List.map_cons, List.cons_append, BarsInside, if_neg h₁, if_neg h₂] at h
    obtain ⟨hbar, hrest⟩ := ih (fun e he => hcs e (by simp [he])) h.2
    refine ⟨?_, hrest⟩
    intro e he heq
    rcases List.mem_cons.1 he with rfl | he
    · exact h.1 (by rw [heq])
    · exact hbar e he heq

theorem barsInside_lexeme {d : Nat} {x : Lexeme} {rest : List Item} (hx : x.Fits d)
    (h : BarsInside d (x.items ++ rest)) : x.Fits (1 + d) ∧ BarsInside (x.depth d) rest := by
  cases x with
  | opening => exact ⟨trivial, h⟩
  | closing => exact ⟨trivial, h⟩
  | bar => exact ⟨by show 0 < 1 + d; omega, h.2⟩
  | escape c => exact ⟨trivial, h.2⟩
  | run c cs =>
    obtain ⟨hbar, hrest⟩ := barsInside_run hx h
    refine ⟨?_, hrest⟩
    rintro e he (hs | hs | hs | ⟨hs, -⟩)
    · exact hx e he (.inl hs)
    · exact hx e he (.inr (.inl hs))
    · exact hx e he (.inr (.inr (.inl hs)))
    · exact hx e he (.inr (.inr (.inr ⟨hs, hbar e he hs⟩)))

end Sweep

/-- With one more block around them, lexemes keep their places. -/
theorem fitting_wrapped {xs : List Lexeme} {k j : Nat} (hf : Fitting k xs)
    (hl : level k (xs.map Lexeme.kind) = some j)
    (hb : Sweep.BarsInside k (xs.flatMap Lexeme.items)) : Fitting (1 + k) xs := by
  induction xs generalizing k with
  | nil => trivial
  | cons x xs ih =>
    obtain ⟨i, hx, hxs⟩ := level_cons_eq_some.1 hl
    obtain ⟨hfits, hrest⟩ := hf
    obtain ⟨hfits', hb'⟩ := Sweep.barsInside_lexeme hfits hb
    have hdepth := depth_of_level hx 0
    rw [Nat.zero_add, Nat.zero_add] at hdepth
    rw [hdepth] at hrest hb'
    refine ⟨hfits', ?_⟩
    rw [depth_of_level hx]
    exact ih hrest hxs hb'

/-! ## Options side by side -/

/-- The options of a block with their bars, and the brace behind them. -/
def optionTail (options : List (List Lexeme)) : List Lexeme :=
  options.flatMap (.bar :: ·) ++ [.closing]

theorem cut_append_tail {d : Nat} {xs : List Lexeme} {options : List (List Lexeme)}
    (hx : Cut d xs) (ht : Cut (depthAfter d xs) (optionTail options)) :
    Cut d (xs ++ optionTail options) := by
  refine cut_append.2 ⟨hx, ht, ?_⟩
  intro x _ y hy hxy
  have hrun := hxy.2
  cases options with
  | nil =>
    cases hy
    cases hrun
  | cons zs options =>
    cases hy
    cases hrun

theorem cut_optionTail {options : List (List Lexeme)}
    (h : ∀ xs ∈ options, Cut 1 xs ∧ depthAfter 1 xs = 1) : Cut 1 (optionTail options) := by
  induction options with
  | nil => exact cut_cons trivial (by simp [Lexeme.isRun]) ⟨trivial, .nil⟩
  | cons xs options ih =>
    obtain ⟨hcut, hdepth⟩ := h xs (by simp)
    have hrest : Cut 1 (optionTail options) := ih fun ys hy => h ys (by simp [hy])
    have hstart : optionTail (xs :: options) = .bar :: (xs ++ optionTail options) := by
      simp [optionTail]
    rw [hstart]
    refine cut_cons Nat.one_pos (by simp [Lexeme.isRun]) ?_
    show Cut 1 (xs ++ optionTail options)
    exact cut_append_tail hcut (by rw [hdepth]; exact hrest)

theorem chars_optionTail (options : List (List Lexeme)) :
    (optionTail options).flatMap Lexeme.chars =
      options.flatMap (fun xs => '|' :: xs.flatMap Lexeme.chars) ++ ['}'] := by
  rw [optionTail, List.flatMap_append, List.flatMap_assoc]
  rfl

theorem intercalate_bar (s : String) (rest : List String) :
    ("|".intercalate (s :: rest)).toList =
      s.toList ++ rest.flatMap fun r => '|' :: r.toList := by
  rw [String.toList_intercalate]
  induction rest generalizing s with
  | nil => simp
  | cons r rest ih =>
    have h := ih r
    rw [List.map_cons] at h
    rw [List.map_cons, List.map_cons, List.intercalate_cons_cons, h, List.flatMap_cons]
    simp

/-! ## Nesting -/

namespace Tree

mutual

/-- How many blocks of a tree are open at once, at most. -/
def nesting : Tree → Nat
  | .pattern first rest _ => max first.nesting (nestingAll rest)
  | .block first rest _ => max first.nesting (nestingAll rest) + 1
  | _ => 0

def nestingAll : List Tree → Nat
  | [] => 0
  | t :: ts => max t.nesting (nestingAll ts)

end

theorem nestingAll_le_iff {ts : List Tree} {m : Nat} :
    nestingAll ts ≤ m ↔ ∀ t ∈ ts, t.nesting ≤ m := by
  induction ts with
  | nil => simp [nestingAll]
  | cons t ts ih => rw [nestingAll, Nat.max_le, ih, List.forall_mem_cons]

theorem shape_of_nesting (t : Tree) :
    (∀ n, t.IsPattern n → ∀ m, t.nesting ≤ m → t.IsPattern m) ∧
      ∀ n, t.IsPart n → ∀ m, t.nesting ≤ m → t.IsPart m := by
  refine shape_induct (P := fun _ t => ∀ m, t.nesting ≤ m → t.IsPattern m)
    (Q := fun _ t => ∀ m, t.nesting ≤ m → t.IsPart m) ?_ ?_ ?_ t
  · intro n content l m _
    simp [IsPart]
  · intro n first rest l h m hm
    obtain ⟨hf, hr⟩ := Nat.max_le.1 (show max first.nesting (nestingAll rest) ≤ m from hm)
    refine ⟨h first (by simp) m hf, areParts_iff.2 fun u hu => ?_⟩
    exact h u (by simp [hu]) m (nestingAll_le_iff.1 hr u hu)
  · intro n first rest l hf hr m hm
    have hlt : max first.nesting (nestingAll rest) + 1 ≤ m := hm
    obtain ⟨m, rfl⟩ : ∃ k, m = k + 1 := ⟨m - 1, by omega⟩
    obtain ⟨hf', hr'⟩ := Nat.max_le.1 (Nat.le_of_succ_le_succ hlt)
    refine ⟨hf m hf', arePatterns_iff.2 fun u hu => ?_⟩
    exact hr u hu m (nestingAll_le_iff.1 hr' u hu)

end Tree

/-! ## The block of all options -/

namespace Template

variable {limit : Nat} {file : Option String}

/-- What is needed of the lexemes of an option to put them into a block. -/
structure Wrappable (limit : Nat) (text : String) (t : Tree) (xs : List Lexeme) : Prop where
  cut : Cut 1 xs
  depth_eq : depthAfter 1 xs = 1
  text_eq : text.toList = xs.flatMap Lexeme.chars
  symbols_eq : xs.map Lexeme.symbol = t.symbols
  isPattern : t.IsPattern (limit - 1)

theorem exists_wrappable {text : String} {t : Tree}
    (h : (compile limit file text).value = .ok t)
    (hbars : Sweep.BarsInside 0 (Sweep.items text.toList)) (hdeep : t.nesting < limit) :
    ∃ xs, Wrappable limit text t xs := by
  obtain ⟨xs, hcut, htext, -, hsymbols, hpattern⟩ := exists_cut_of_compile h
  have hlevel : level 0 (xs.map Lexeme.kind) = some 0 :=
    Tree.level_lexemes (.inl hpattern) hsymbols 0
  rw [htext, Sweep.items_flatMap_chars hcut] at hbars
  have hfits : Fitting (1 + 0) xs := fitting_wrapped hcut.fits hlevel hbars
  have hdepth : depthAfter (1 + 0) xs = 1 + 0 := depthAfter_of_level hlevel 1
  refine ⟨xs, ⟨hfits, hcut.apart⟩, hdepth, htext, hsymbols, ?_⟩
  exact (Tree.shape_of_nesting t).1 limit hpattern (limit - 1) (by omega)

theorem exists_wrappables {sources : List String} {trees : List Tree}
    (h : List.Forall₂ (fun text t => (compile limit file text).value = .ok t) sources trees)
    (hbars : ∀ text ∈ sources, Sweep.BarsInside 0 (Sweep.items text.toList))
    (hdeep : ∀ t ∈ trees, t.nesting < limit) :
    ∃ options : List (List Lexeme),
      (∀ xs ∈ options, Cut 1 xs ∧ depthAfter 1 xs = 1) ∧
      sources.flatMap (fun text => '|' :: text.toList) =
        options.flatMap (fun xs => '|' :: xs.flatMap Lexeme.chars) ∧
      (options.flatMap (.bar :: ·)).map Lexeme.symbol = Tree.symbolsBarred trees ∧
      ∀ t ∈ trees, t.IsPattern (limit - 1) := by
  induction h with
  | nil => exact ⟨[], by simp, rfl, rfl, by simp⟩
  | @cons text t sources trees ht _ ih =>
    obtain ⟨xs, hx⟩ := exists_wrappable ht (hbars text (by simp)) (hdeep t (by simp))
    obtain ⟨options, hcut, htext, hsymbols, hpattern⟩ :=
      ih (fun s hs => hbars s (by simp [hs])) fun u hu => hdeep u (by simp [hu])
    refine ⟨xs :: options, ?_, ?_, ?_, ?_⟩
    · intro ys hys
      rcases List.mem_cons.1 hys with rfl | hys
      · exact ⟨hx.cut, hx.depth_eq⟩
      · exact hcut ys hys
    · rw [List.flatMap_cons, List.flatMap_cons, htext, hx.text_eq]
    · rw [List.flatMap_cons, List.map_append, hsymbols, List.map_cons, hx.symbols_eq]
      rfl
    · intro u hu
      rcases List.mem_cons.1 hu with rfl | hu
      · exact hx.isPattern
      · exact hpattern u hu

theorem wrapped_tree {first : String} {rest : List String} {t : Tree} {ts : List Tree}
    (h : List.Forall₂ (fun text t => (compile limit file text).value = .ok t)
      (first :: rest) (t :: ts))
    (hbars : ∀ text ∈ first :: rest, Sweep.BarsInside 0 (Sweep.items text.toList))
    (hdeep : ∀ u ∈ t :: ts, u.nesting < limit) :
    ∃ u, (compile limit file ("\x7b" ++ "|".intercalate (first :: rest) ++ "\x7d")).value = .ok u ∧
      u.same (.pattern (.block t ts .unknown) [] .unknown) ∧ u.IsPattern limit := by
  cases h with
  | cons ht hts =>
    obtain ⟨xs, hx⟩ := exists_wrappable ht (hbars first (by simp)) (hdeep t (by simp))
    obtain ⟨options, hcut, htext, hsymbols, hpattern⟩ :=
      exists_wrappables hts (fun s hs => hbars s (by simp [hs])) fun u hu => hdeep u (by simp [hu])
    have hlimit : limit - 1 + 1 = limit := by
      have := hdeep t (by simp)
      omega
    have htail : Cut (depthAfter 1 xs) (optionTail options) := by
      rw [hx.depth_eq]
      exact cut_optionTail hcut
    have hall : Cut 0 (.opening :: (xs ++ optionTail options)) :=
      cut_cons trivial (by simp [Lexeme.isRun]) (cut_append_tail hx.cut htail)
    refine compile_of_cut hall ?_ ?_ ?_ file
    · rw [String.toList_append, String.toList_append, intercalate_bar, hx.text_eq, htext,
        List.flatMap_cons, List.flatMap_append, chars_optionTail]
      simp [Lexeme.chars]
    · refine ⟨?_, trivial⟩
      rw [← hlimit]
      exact ⟨hx.isPattern, Tree.arePatterns_iff.2 hpattern⟩
    · rw [List.map_cons, List.map_append, hx.symbols_eq, optionTail, List.map_append, hsymbols]
      simp [Tree.symbols, Tree.symbolsAll, Lexeme.symbol, Lexeme.kind]

end Template

/-! ## Running the block -/

theorem forall₂_pick? {α β : Type} {R : α → β → Prop} {xs : List α} {ys : List β}
    (h : List.Forall₂ R xs ys) (i : Int) :
    (pick? xs i = none ∧ pick? ys i = none) ∨
      ∃ x y, pick? xs i = some x ∧ pick? ys i = some y ∧ R x y := by
  have hlen := h.length_eq
  have hget : ∀ n : Nat, (xs[n]? = none ∧ ys[n]? = none) ∨
      ∃ x y, xs[n]? = some x ∧ ys[n]? = some y ∧ R x y := by
    intro n
    by_cases hn : n < xs.length
    · have hn' : n < ys.length := by omega
      exact .inr ⟨xs[n], ys[n], List.getElem?_eq_getElem hn, List.getElem?_eq_getElem hn',
        List.forall₂_iff_get.1 h |>.2 n hn hn'⟩
    · exact .inl ⟨List.getElem?_eq_none (by omega), List.getElem?_eq_none (by omega)⟩
  unfold pick?
  rw [← hlen]
  by_cases h₀ : 0 ≤ i
  · rw [if_pos h₀, if_pos h₀]
    exact hget i.toNat
  · rw [if_neg h₀, if_neg h₀]
    by_cases h₁ : -(xs.length : Int) ≤ i
    · rw [if_pos h₁, if_pos h₁]
      exact hget (xs.length + i).toNat
    · rw [if_neg h₁, if_neg h₁]
      exact .inl ⟨rfl, rfl⟩

namespace Template

open Evaluation (denote)
open Generation (run)

/-- The block of all options compiles to the block of their trees. To run it, a pick is asked for
once, out of as many as there are options, and the option that is picked is run. -/
theorem compile_wrapped {limit : Nat} {file : Option String} {first : String} {rest : List String}
    {t : Tree} {ts : List Tree}
    (h : List.Forall₂ (fun text t => (compile limit file text).value = .ok t)
      (first :: rest) (t :: ts))
    (hbars : ∀ text ∈ first :: rest, Sweep.BarsInside 0 (Sweep.items text.toList))
    (hdeep : ∀ u ∈ t :: ts, u.nesting < limit) :
    let whole := "\x7b" ++ "|".intercalate (first :: rest) ++ "\x7d"
    (∃ u, (compile limit file whole).value = .ok u ∧
      u.same (.pattern (.block t ts .unknown) [] .unknown)) ∧
    ∀ (σ ε : Type) (draw : Source σ ε) (s : σ),
      let out := run draw limit file (.source whole) s
      match draw s (first :: rest).length with
      | (.error e, s') => out.result = .error (.evaluation (.source e)) ∧ out.source = s'
      | (.ok pick, s') =>
        match pick? (first :: rest) pick with
        | none => out.result = .error (.evaluation (.outOfRange pick)) ∧ out.source = s'
        | some text =>
          let one := run draw limit file (.source text) s'
          out.result = one.result ∧ out.source = one.source := by
  intro whole
  obtain ⟨u, hu, hsame, hpattern⟩ := wrapped_tree h hbars hdeep
  refine ⟨⟨u, hu, hsame⟩, ?_⟩
  intro σ ε draw s out
  have hlen : (t :: ts).length = (first :: rest).length := h.length_eq.symm
  have hmeaning : denote draw u s = denote draw (.block t ts .unknown) s := by
    rw [Evaluation.denote_of_same u (Tree.IsShaped.valueless (.inl hpattern)) _ hsame]
    exact Evaluation.andThen_nil _
  rw [Evaluation.denote_block, hlen] at hmeaning
  obtain ⟨hresult, hsource⟩ := Generation.run_of_compile hu draw s
  rcases hdraw : draw s (first :: rest).length with ⟨e | pick, s'⟩
  · rw [hdraw] at hmeaning
    rw [hmeaning] at hresult hsource
    exact ⟨hresult, hsource⟩
  · rcases forall₂_pick? h pick with ⟨hp, hp'⟩ | ⟨text, t', hp, hp', ht'⟩
    · simp only [hdraw, hp'] at hmeaning
      rw [hmeaning] at hresult hsource
      simp only [hp]
      exact ⟨hresult, hsource⟩
    · simp only [hdraw, hp'] at hmeaning
      rw [hmeaning] at hresult hsource
      simp only [hp]
      obtain ⟨hone, hone'⟩ := Generation.run_of_compile ht' draw s'
      exact ⟨hresult.trans hone.symm, hsource.trans hone'.symm⟩

/-- A block inside an option, and an option that is one escaped bar. The last pick counts from the
end. -/
theorem compile_wrapped_two :
    let nested := "a\x7bx|y\x7d"
    let bar := "\\|"
    let whole := "\x7ba\x7bx|y\x7d|\\|\x7d"
    ∃ t₁ t₂ u, (compile 2 none nested).value = .ok t₁ ∧ (compile 2 none bar).value = .ok t₂ ∧
      (∀ text ∈ [nested, bar], Sweep.BarsInside 0 (Sweep.items text.toList)) ∧
      (∀ t ∈ [t₁, t₂], t.nesting < 2) ∧
      (compile 2 none whole).value = .ok u ∧
      u.same (.pattern (.block t₁ [t₂] .unknown) [] .unknown) ∧
      (run Chooser.draw 2 none (.source whole) (.scripted [-1])).result =
        (run Chooser.draw 2 none (.source bar) (.scripted [])).result := by
  intro nested bar whole
  have hnested : Lexed 0 nested.toList
      [.run 'a' [], .opening, .run 'x' [], .bar, .run 'y' [], .closing] [] :=
    lexed_iff_cut.2 ⟨by decide, by decide⟩
  have hbar : Lexed 0 bar.toList [.escape '|'] [] := lexed_iff_cut.2 ⟨by decide, by decide⟩
  obtain ⟨t₁, h₁, hd₁⟩ : ∃ t, (compile 2 none nested).value = .ok t ∧ t.nesting < 2 :=
    ⟨_, (compile_of_lexed hnested 2 none).trans rfl, by decide⟩
  obtain ⟨t₂, h₂, hd₂⟩ : ∃ t, (compile 2 none bar).value = .ok t ∧ t.nesting < 2 :=
    ⟨_, (compile_of_lexed hbar 2 none).trans rfl, by decide⟩
  have hbars : ∀ text ∈ [nested, bar], Sweep.BarsInside 0 (Sweep.items text.toList) := by decide
  have hdeep : ∀ t ∈ [t₁, t₂], t.nesting < 2 :=
    List.forall_mem_cons.2 ⟨hd₁, List.forall_mem_singleton.2 hd₂⟩
  obtain ⟨⟨u, hu, hsame⟩, hrun⟩ := compile_wrapped (.cons h₁ (.cons h₂ .nil)) hbars hdeep
  have hlast : (run Chooser.draw 2 none (.source whole) (.scripted [-1])).result =
      (run Chooser.draw 2 none (.source bar) (.scripted [])).result ∧ _ :=
    hrun _ _ Chooser.draw (.scripted [-1])
  exact ⟨t₁, t₂, u, h₁, h₂, hbars, hdeep, hu, hsame, hlast.1⟩

end Template
end Spintax
