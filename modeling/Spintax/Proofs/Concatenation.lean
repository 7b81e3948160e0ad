import Spintax.Proofs.Meanings
import Spintax.Proofs.Shifts
import Spintax.Proofs.Spelling

/-!
# Spintax.Proofs.Concatenation

One template behind another. The parts of the whole are the parts of both, but that two runs of
plain text that meet at the seam are one run. What is wrong with the second template is wrong with
the whole, at the place that the first one moves it to.

* `EndsPlain`, `StartsPlain`: whether a run of plain text reaches the end, or starts at the start.
* `cut_seam_apart`, `cut_seam_run`: the lexemes of the whole.
* `Diagnostic.shifted`: the same report, so many lines and columns later.
* `compile_append`: the tree of the whole and what running it does, or its fault.
-/

namespace Spintax

/-! ## The seam -/

/-- The last item is a character that is not escaped and no brace. -/
def EndsPlain (cs : List Char) : Prop :=
  ∃ c, (Sweep.items cs).getLast? = some (.single c) ∧ ¬ Stops 0 c

def StartsPlain (cs : List Char) : Prop :=
  ∃ c, cs.head? = some c ∧ ¬ Stops 0 c

theorem startsPlain_iff {ys : List Lexeme} (h : Cut 0 ys) :
    StartsPlain (ys.flatMap Lexeme.chars) ↔ ∃ c cs zs, ys = .run c cs :: zs := by
  cases ys with
  | nil => simp [StartsPlain]
  | cons y ys =>
    obtain ⟨e, es, hchars⟩ := List.exists_cons_of_ne_nil y.chars_ne_nil
    have hhead : ((y :: ys).flatMap Lexeme.chars).head? = some e := by
      rw [List.flatMap_cons, hchars]
      rfl
    constructor
    · rintro ⟨e', he, hstop⟩
      rw [hhead] at he
      cases he
      by_cases hrun : y.isRun
      · obtain ⟨c, cs, rfl⟩ := Lexeme.exists_of_isRun hrun
        exact ⟨c, cs, ys, rfl⟩
      · exact absurd (Lexeme.stops_head h.fits.1 hrun hchars) hstop
    · rintro ⟨c, cs, zs, hy⟩
      cases hy
      cases hchars
      exact ⟨e, hhead, h.fits.1 e (by simp)⟩

theorem endsPlain_iff {xs : List Lexeme} (h : Cut 0 xs) (hd : depthAfter 0 xs = 0) :
    EndsPlain (xs.flatMap Lexeme.chars) ↔ ∃ zs c cs, xs = zs ++ [.run c cs] := by
  rw [EndsPlain, Sweep.items_flatMap_chars h]
  rcases List.eq_nil_or_concat xs with rfl | ⟨zs, x, rfl⟩
  · simp
  · rw [List.concat_eq_append] at h hd ⊢
    obtain ⟨-, ⟨⟨hx, -⟩, -⟩, -⟩ := cut_append.1 h
    rw [depthAfter_append] at hd
    rw [List.flatMap_append, List.flatMap_singleton]
    constructor
    · rintro ⟨e, he, hstop⟩
      cases x with
      | run c cs => exact ⟨zs, c, cs, rfl⟩
      | opening => exact absurd hd (Nat.succ_ne_zero _)
      | closing =>
        rw [Lexeme.items, List.getLast?_concat] at he
        cases he
        exact absurd (.inr (.inl rfl)) hstop
      | bar => exact absurd hd (Nat.ne_of_gt hx)
      | escape c =>
        rw [Lexeme.items, List.getLast?_concat] at he
        cases he
    · rintro ⟨zs', c, cs, heq⟩
      obtain ⟨-, hrun⟩ := List.append_inj' heq rfl
      cases hrun
      obtain ⟨e, he⟩ : ∃ e, (c :: cs).getLast? = some e :=
        Option.isSome_iff_exists.1 (by simp)
      refine ⟨e, ?_, ?_⟩
      · rw [Lexeme.items, List.getLast?_append, List.getLast?_map, he]
        rfl
      · exact fun hs => hx e (List.mem_of_getLast? he) (stops_mono (Nat.zero_le _) hs)

theorem cut_seam_apart {xs ys : List Lexeme} (hx : Cut 0 xs) (hy : Cut 0 ys)
    (hd : depthAfter 0 xs = 0)
    (h : ¬ (EndsPlain (xs.flatMap Lexeme.chars) ∧ StartsPlain (ys.flatMap Lexeme.chars))) :
    Cut 0 (xs ++ ys) := by
  refine cut_append.2 ⟨hx, by rwa [hd], ?_⟩
  rintro x hxl y hyh ⟨hxr, hyr⟩
  obtain ⟨c, cs, rfl⟩ := Lexeme.exists_of_isRun hxr
  obtain ⟨e, es, rfl⟩ := Lexeme.exists_of_isRun hyr
  obtain ⟨zs, rfl⟩ := List.getLast?_eq_some_iff.1 hxl
  obtain ⟨us, rfl⟩ := List.head?_eq_some_iff.1 hyh
  exact h ⟨(endsPlain_iff hx hd).2 ⟨zs, c, cs, rfl⟩, (startsPlain_iff hy).2 ⟨e, es, us, rfl⟩⟩

theorem cut_seam_run {zs us : List Lexeme} {c e : Char} {cs es : List Char}
    (hx : Cut 0 (zs ++ [.run c cs])) (hy : Cut 0 (.run e es :: us))
    (hd : depthAfter 0 (zs ++ [.run c cs]) = 0) :
    Cut 0 (zs ++ .run c (cs ++ e :: es) :: us) := by
  obtain ⟨hzs, ⟨⟨hfits, -⟩, -⟩, hapart⟩ := cut_append.1 hx
  rw [depthAfter_append] at hd
  have hd' : depthAfter 0 zs = 0 := hd
  rw [hd'] at hfits
  refine cut_append.2 ⟨hzs, ?_, ?_⟩
  · rw [hd']
    exact cut_run hfits hy
  · intro x hxl y hyh
    cases hyh
    exact hapart x hxl (.run c cs) rfl

/-! ## The parts of both -/

namespace Tree

theorem parts_of_text_concat {n : Nat} {parts : List Tree} {w : List Symbol} {a : String}
    (hp : ∀ p ∈ parts, p.IsPart n) (h : symbolsAll parts = w ++ [.text a]) :
    ∃ ps l, parts = ps ++ [.text a l] ∧ symbolsAll ps = w := by
  rcases List.eq_nil_or_concat parts with rfl | ⟨ps, p, rfl⟩
  · simp [symbolsAll] at h
  · rw [List.concat_eq_append] at hp h ⊢
    rw [symbolsAll_append] at h
    have hone : symbolsAll [p] = p.symbols := by simp [symbolsAll]
    rw [hone] at h
    rcases (hp p (by simp)).symbols_cases with ⟨b, l, rfl⟩ | ⟨v, hv⟩
    · obtain ⟨hps, hb⟩ := List.append_inj' h rfl
      cases hb
      exact ⟨ps, l, rfl, hps⟩
    · rw [hv, ← List.cons_append, ← List.append_assoc] at h
      obtain ⟨-, hlast⟩ := List.append_inj' h rfl
      cases hlast

theorem parts_of_text_cons {n : Nat} {parts : List Tree} {w : List Symbol} {b : String}
    (hp : ∀ p ∈ parts, p.IsPart n) (h : symbolsAll parts = .text b :: w) :
    ∃ l qs, parts = .text b l :: qs ∧ symbolsAll qs = w := by
  cases parts with
  | nil => cases h
  | cons p qs =>
    rw [symbolsAll] at h
    rcases (hp p (by simp)).symbols_cases with ⟨b', l, rfl⟩ | ⟨v, hv⟩
    · cases h
      exact ⟨l, qs, rfl, rfl⟩
    · rw [hv] at h
      cases h

/-- The parts of two patterns, one behind the other. Where the texts at the seam are `fused`, they
are one text. -/
inductive Meets (fused : Prop) : List Tree → List Tree → List Tree → Prop where
  | apart {ps qs : List Tree} (h : ¬ fused) : Meets fused ps qs (ps ++ qs)
  | fused {ps qs : List Tree} {a b : String} {l m k : Location} (h : fused) :
      Meets fused (ps ++ [.text a l]) (.text b m :: qs) (ps ++ .text (a ++ b) k :: qs)

end Tree

namespace Evaluation

theorem denoteAll_meets {σ ε : Type} {draw : Source σ ε} {fused : Prop} {ps qs rs : List Tree}
    (h : Tree.Meets fused ps qs rs) (s : σ) :
    denoteAll draw rs s = (denoteAll draw ps s).andThen (denoteAll draw qs) := by
  cases h with
  | apart _ => exact denoteAll_append ps qs s
  | @fused ps qs a b l m k _ =>
    have htail : denoteAll draw (.text (a ++ b) k :: qs) =
        denoteAll draw ([.text a l] ++ .text b m :: qs) := funext (denoteAll_texts a b l m k qs)
    rw [denoteAll_append, htail, ← denoteAll_append, ← List.append_assoc, denoteAll_append]

end Evaluation

/-! ## Faults behind a template -/

namespace Diagnostic

/-- The same report with the text so many lines further down, and its first line so many columns
further to the right. -/
def shifted (lines columns : Nat) (d : Diagnostic) : Diagnostic :=
  { d with
    line := d.line.map (· + lines)
    column := if d.line = some 1 then d.column.map (· + columns) else d.column }

/-- A report about the point `m` of a text. -/
def about (kind : Kind) (text : String) (file : Option String) (m : Mark) : Diagnostic :=
  ⟨kind, text, some m.line, some m.column, file⟩

theorem about_behind {m : Mark} (h : m.Started) (kind : Kind) (text : String)
    (file : Option String) (cs : List Char) :
    Diagnostic.about kind text file ((({} : Mark).past cs).behind m) =
      (Diagnostic.about kind text file m).shifted (cs.count '\n') (Mark.lastLine cs).length := by
  obtain ⟨hl, hc⟩ := h
  have hline : (({} : Mark).past cs).line = 1 + cs.count '\n' := Mark.past_line {} cs
  simp only [Diagnostic.about, shifted, Mark.behind, hline, Mark.past_column, Option.map_some,
    Option.some.injEq]
  by_cases h₁ : m.line = 1
  · have h₂ : (m.line : Int) = 1 := by omega
    rw [if_pos h₁, if_pos h₂]
    simp only [Diagnostic.mk.injEq, Option.some.injEq, true_and, and_true]
    constructor
    · omega
    · omega
  · have h₂ : ¬ (m.line : Int) = 1 := by omega
    rw [if_neg h₁, if_neg h₂]
    simp only [Diagnostic.mk.injEq, Option.some.injEq, true_and, and_true]
    omega

end Diagnostic

namespace Template

open Sweep (verdict)
open Evaluation (denote denoteAll)
open Generation (run)

variable {limit : Nat} {file : Option String}

theorem compile_lone {text : String} (h : endsLone text.toList) :
    (compile limit file text).value =
      .error (.about .lexical "dangling escape" file (({} : Mark).past text.toList.dropLast)) := by
  obtain ⟨xs, tail, hxs⟩ := exists_lexed 0 text.toList
  have htail := hxs.tail_eq
  rw [if_pos h] at htail
  subst htail
  have htokens := tokens_of_lexed hxs file
  rw [if_neg (by simp)] at htokens
  have hcs : text.toList.dropLast = xs.flatMap Lexeme.chars := by
    rw [hxs.chars_append, List.dropLast_concat]
  rw [hcs]
  simp only [compile, htokens]
  rfl

theorem compile_told (limit : Nat) (file : Option String) {text : String}
    (h : endsLone text.toList = false) :
    match verdict limit text.toList with
    | some o => (compile limit file text).value = .error (o.diagnostic file)
    | none => ∃ t, (compile limit file text).value = .ok t := by
  obtain ⟨xs, hxs⟩ := exists_lexed_of_clean h 0
  rw [compile_of_lexed hxs]
  exact (Parser.parse_told hxs limit file).report

/-- Nothing is wrong with a text that compiles. -/
theorem verdict_of_compile {text : String} {t : Tree}
    (h : (compile limit file text).value = .ok t) :
    endsLone text.toList = false ∧ verdict limit text.toList = none := by
  have hlone : endsLone text.toList = false := by
    by_contra hl
    rw [compile_lone (by simpa using hl)] at h
    cases h
  have htold := compile_told limit file hlone
  refine ⟨hlone, ?_⟩
  cases hv : verdict limit text.toList with
  | none => rfl
  | some o =>
    rw [hv] at htold
    simp only at htold
    rw [h] at htold
    cases htold

theorem compile_append_error {s₁ s₂ : String} {t₁ : Tree} {d : Diagnostic}
    (h₁ : (compile limit file s₁).value = .ok t₁) (hne : s₂ ≠ "")
    (h₂ : (compile limit file s₂).value = .error d) :
    ∃ kind text m, d = .about kind text file m ∧ m.Started ∧
      (compile limit file (s₁ ++ s₂)).value =
        .error (.about kind text file ((({} : Mark).past s₁.toList).behind m)) := by
  obtain ⟨hlone₁, hverdict₁⟩ := verdict_of_compile h₁
  have hcs : s₂.toList ≠ [] := by simpa using hne
  have hlone : endsLone (s₁ ++ s₂).toList = endsLone s₂.toList := by
    rw [String.toList_append]
    exact Sweep.endsLone_append_of_not_lone hlone₁ s₂.toList
  by_cases hl : endsLone s₂.toList
  · rw [compile_lone hl] at h₂
    cases h₂
    refine ⟨_, _, _, rfl, Mark.started.past _, ?_⟩
    rw [compile_lone (hlone.trans hl), String.toList_append, List.dropLast_append_of_ne_nil hcs,
      Mark.past_append, ← Mark.past_behind Mark.started, Mark.behind_start]
  · have hl' : endsLone s₂.toList = false := by simpa using hl
    have htold₂ := compile_told limit file hl'
    have htold := compile_told limit file (hlone.trans hl')
    rw [String.toList_append, Sweep.verdict_append hverdict₁ hlone₁ hcs] at htold
    cases hv : verdict limit s₂.toList with
    | none =>
      rw [hv] at htold₂
      obtain ⟨t, ht⟩ := htold₂
      rw [ht] at h₂
      cases h₂
    | some o =>
      rw [hv] at htold₂ htold
      simp only at htold₂
      rw [htold₂] at h₂
      cases h₂
      obtain ⟨m, hm, hstarted⟩ := Sweep.placed_of_verdict hv hcs
      obtain ⟨text, mark⟩ := o
      cases hm
      exact ⟨_, _, m, rfl, hstarted, htold⟩

/-! ## The tree of both -/

theorem compile_of_parts {text : String} {xs : List Lexeme} {parts : List Tree} (hx : Cut 0 xs)
    (htext : text.toList = xs.flatMap Lexeme.chars) (hp : ∀ p ∈ parts, p.IsPart limit)
    (hne : parts ≠ []) (hs : xs.map Lexeme.symbol = Tree.symbolsAll parts) :
    ∃ t, (compile limit file text).value = .ok t ∧ t.IsPattern limit ∧
      Tree.sameAll t.children parts := by
  obtain ⟨first, rest, rfl⟩ := List.exists_cons_of_ne_nil hne
  have hwhole : (Tree.pattern first rest .unknown).IsPattern limit := Tree.isPattern_iff.2 hp
  obtain ⟨t, ht, hsame, hpattern⟩ := compile_of_cut hx htext hwhole hs file
  refine ⟨t, ht, hpattern, ?_⟩
  obtain ⟨first', rest', l, rfl⟩ := hpattern.exists_eq
  obtain ⟨_, _, _, heq, hall⟩ := Tree.same_pattern_iff.1 hsame
  cases heq
  exact hall

theorem denote_of_parts {σ ε : Type} {draw : Source σ ε} {t : Tree} {parts : List Tree}
    (ht : t.IsPattern limit) (h : Tree.sameAll t.children parts) :
    denote draw t = denoteAll draw parts := by
  have hv : t.Valueless := Tree.IsShaped.valueless (.inl ht)
  rw [Evaluation.denote_of_isPattern ht]
  refine Evaluation.denoteAll_congr (Evaluation.forall₂_denote ?_ h)
  intro p hp
  exact Evaluation.denote_of_same p (hv.child hp)

theorem Spelled.parts {text : String} {t : Tree} {xs : List Lexeme}
    (h : Spelled limit file text t xs) :
    xs.map Lexeme.symbol = Tree.symbolsAll t.children ∧ depthAfter 0 xs = 0 := by
  constructor
  · rw [h.symbols_eq, h.isPattern.symbols_eq]
  · exact depthAfter_of_level (Tree.level_lexemes (.inl h.isPattern) h.symbols_eq 0) 0

theorem compile_append_ok {s₁ s₂ : String} {t₁ t₂ : Tree}
    (h₁ : (compile limit file s₁).value = .ok t₁) (h₂ : (compile limit file s₂).value = .ok t₂) :
    ∃ t parts, (compile limit file (s₁ ++ s₂)).value = .ok t ∧ t.IsPattern limit ∧
      Tree.sameAll t.children parts ∧
      Tree.Meets (EndsPlain s₁.toList ∧ StartsPlain s₂.toList) t₁.children t₂.children parts := by
  obtain ⟨xs, hx⟩ := exists_cut_of_compile h₁
  obtain ⟨ys, hy⟩ := exists_cut_of_compile h₂
  obtain ⟨hxs, hdepth⟩ := hx.parts
  obtain ⟨hys, -⟩ := hy.parts
  have hp₁ := hx.isPattern.children
  have hp₂ := hy.isPattern.children
  have hchars : (s₁ ++ s₂).toList = (xs ++ ys).flatMap Lexeme.chars := by
    rw [String.toList_append, List.flatMap_append, hx.text_eq, hy.text_eq]
  rw [hx.text_eq, hy.text_eq]
  by_cases hseam : EndsPlain (xs.flatMap Lexeme.chars) ∧ StartsPlain (ys.flatMap Lexeme.chars)
  · obtain ⟨zs, c, cs, rfl⟩ := (endsPlain_iff hx.cut hdepth).1 hseam.1
    obtain ⟨e, es, us, rfl⟩ := (startsPlain_iff hy.cut).1 hseam.2
    rw [List.map_append] at hxs
    obtain ⟨ps, l, hps, hzs⟩ := Tree.parts_of_text_concat hp₁ hxs.symm
    obtain ⟨m, qs, hqs, hus⟩ := Tree.parts_of_text_cons hp₂ hys.symm
    rw [hps] at hp₁ ⊢
    rw [hqs] at hp₂ ⊢
    let seam : Tree := .text (String.ofList (c :: cs) ++ String.ofList (e :: es)) .unknown
    have hparts : ∀ p ∈ ps ++ seam :: qs, p.IsPart limit := by
      intro p hp
      rcases List.mem_append.1 hp with hp | hp
      · exact hp₁ p (by simp [hp])
      · rcases List.mem_cons.1 hp with rfl | hp
        · simp [seam, Tree.IsPart]
        · exact hp₂ p (by simp [hp])
    have hsymbols : (zs ++ .run c (cs ++ e :: es) :: us).map Lexeme.symbol =
        Tree.symbolsAll (ps ++ seam :: qs) := by
      rw [List.map_append, Tree.symbolsAll_append, hzs, List.map_cons, Tree.symbolsAll, hus,
        Lexeme.symbol_run_append]
      rfl
    obtain ⟨t, ht, hpattern, hsame⟩ := compile_of_parts (cut_seam_run hx.cut hy.cut hdepth)
      (by rw [hchars]; simp [Lexeme.chars]) hparts (by simp) hsymbols
    exact ⟨t, _, ht, hpattern, hsame, .fused hseam⟩
  · have hparts : ∀ p ∈ t₁.children ++ t₂.children, p.IsPart limit := by
      intro p hp
      rcases List.mem_append.1 hp with hp | hp
      · exact hp₁ p hp
      · exact hp₂ p hp
    have hne : t₁.children ++ t₂.children ≠ [] := by
      obtain ⟨first, rest, l, rfl⟩ := hx.isPattern.exists_eq
      simp [Tree.children]
    obtain ⟨t, ht, hpattern, hsame⟩ := compile_of_parts
      (cut_seam_apart hx.cut hy.cut hdepth hseam) hchars hparts hne
      (by rw [List.map_append, Tree.symbolsAll_append, hxs, hys])
    exact ⟨t, _, ht, hpattern, hsame, .apart hseam⟩

theorem run_append {σ ε : Type} {s₁ s₂ : String} {t₁ t₂ : Tree}
    (h₁ : (compile limit file s₁).value = .ok t₁) (h₂ : (compile limit file s₂).value = .ok t₂)
    (draw : Source σ ε) (s : σ) :
    let one := run draw limit file (.source s₁) s
    let whole := run draw limit file (.source (s₁ ++ s₂)) s
    match one.result with
    | .error f => whole.result = .error f ∧ whole.source = one.source
    | .ok text =>
      let two := run draw limit file (.source s₂) one.source
      whole.result = two.result.map (text ++ ·) ∧ whole.source = two.source := by
  intro one whole
  obtain ⟨t, parts, ht, hpattern, hsame, hmeets⟩ := compile_append_ok h₁ h₂
  obtain ⟨xs, hx⟩ := exists_cut_of_compile h₁
  obtain ⟨ys, hy⟩ := exists_cut_of_compile h₂
  have hmeaning : denote draw t s = (denote draw t₁ s).andThen (denote draw t₂) := by
    rw [denote_of_parts hpattern hsame, Evaluation.denoteAll_meets hmeets,
      Evaluation.denote_of_isPattern hx.isPattern, Evaluation.denote_of_isPattern hy.isPattern]
  obtain ⟨hw, hw'⟩ := Generation.run_of_compile ht draw s
  obtain ⟨ho, ho'⟩ := Generation.run_of_compile h₁ draw s
  rw [hmeaning] at hw hw'
  rcases hm : denote draw t₁ s with ⟨r, bs, s'⟩
  rw [hm] at ho ho' hw hw'
  cases r with
  | error f =>
    have hone : one.result = .error (.evaluation f) := ho
    simp only [hone]
    exact ⟨hw, hw'.trans ho'.symm⟩
  | ok text =>
    have hone : one.result = .ok text := ho
    have hsource : one.source = s' := ho'
    obtain ⟨htwo, htwo'⟩ := Generation.run_of_compile h₂ draw s'
    simp only [hone, hsource]
    rw [htwo, htwo']
    refine ⟨hw.trans ?_, hw'⟩
    rw [Evaluation.andThen_ok]
    cases (denote draw t₂ s').result with
    | error f => rfl
    | ok text' => rfl

/-- A template behind another one. If both compile, the whole has the parts of both, the two texts
at the seam being one where two runs meet, and running the whole is running the first template and
then the second with the same source, which may write down all that it is asked for. If the second
does not compile, nor does the whole, for the same reason at the place that the first template
moves it to. -/
theorem compile_append {s₁ : String} {t₁ : Tree} (h₁ : (compile limit file s₁).value = .ok t₁)
    (s₂ : String) :
    match (compile limit file s₂).value with
    | .ok t₂ =>
      (∃ t parts, (compile limit file (s₁ ++ s₂)).value = .ok t ∧ t.IsPattern limit ∧
        Tree.sameAll t.children parts ∧
        Tree.Meets (EndsPlain s₁.toList ∧ StartsPlain s₂.toList) t₁.children t₂.children
          parts) ∧
      ∀ (σ ε : Type) (draw : Source σ ε) (s : σ),
        let one := run draw limit file (.source s₁) s
        let whole := run draw limit file (.source (s₁ ++ s₂)) s
        match one.result with
        | .error f => whole.result = .error f ∧ whole.source = one.source
        | .ok text =>
          let two := run draw limit file (.source s₂) one.source
          whole.result = two.result.map (text ++ ·) ∧ whole.source = two.source
    | .error d =>
      s₂ ≠ "" → d.line.isSome ∧ d.column.isSome ∧
        (compile limit file (s₁ ++ s₂)).value =
          .error (d.shifted (s₁.toList.count '\n') (Mark.lastLine s₁.toList).length) := by
  cases h₂ : (compile limit file s₂).value with
  | ok t₂ => exact ⟨compile_append_ok h₁ h₂, fun σ ε draw s => run_append h₁ h₂ draw s⟩
  | error d =>
    intro hne
    obtain ⟨kind, text, m, rfl, hm, hwhole⟩ := compile_append_error h₁ hne h₂
    refine ⟨rfl, rfl, ?_⟩
    rw [hwhole, Diagnostic.about_behind hm]

/-- Two runs that meet behind a line break, and a fault on the line where they meet. -/
theorem compile_append_seam :
    let one := "\x7ba\x7d\nbc"
    let two := "d\x7be|f\x7d"
    let wrong := "d\x7d"
    ∃ t₁ t₂ d, (compile 1 none one).value = .ok t₁ ∧ (compile 1 none two).value = .ok t₂ ∧
      (compile 1 none wrong).value = .error d ∧ d.line = some 1 ∧ d.column = some 2 ∧
      EndsPlain one.toList ∧ StartsPlain two.toList ∧
      (∃ t parts, (compile 1 none (one ++ two)).value = .ok t ∧ t.IsPattern 1 ∧
        Tree.sameAll t.children parts ∧
        Tree.Meets (EndsPlain one.toList ∧ StartsPlain two.toList) t₁.children t₂.children
          parts) ∧
      ∃ d', (compile 1 none (one ++ wrong)).value = .error d' ∧ d'.text = d.text ∧
        d'.line = some 2 ∧ d'.column = some 4 := by
  intro one two wrong
  have hone : Lexed 0 one.toList
      [.opening, .run 'a' [], .closing, .run '\n' ['b', 'c']] [] :=
    lexed_iff_cut.2 ⟨by decide, by decide⟩
  have htwo : Lexed 0 two.toList
      [.run 'd' [], .opening, .run 'e' [], .bar, .run 'f' [], .closing] [] :=
    lexed_iff_cut.2 ⟨by decide, by decide⟩
  have hwrong : Lexed 0 wrong.toList [.run 'd' [], .closing] [] :=
    lexed_iff_cut.2 ⟨by decide, by decide⟩
  obtain ⟨t₁, h₁⟩ : ∃ t, (compile 1 none one).value = .ok t :=
    ⟨_, (compile_of_lexed hone 1 none).trans rfl⟩
  obtain ⟨t₂, h₂⟩ : ∃ t, (compile 1 none two).value = .ok t :=
    ⟨_, (compile_of_lexed htwo 1 none).trans rfl⟩
  obtain ⟨d, h₃, hline, hcolumn⟩ : ∃ d, (compile 1 none wrong).value = .error d ∧
      d.line = some 1 ∧ d.column = some 2 :=
    ⟨_, (compile_of_lexed hwrong 1 none).trans rfl, rfl, rfl⟩
  have hends : EndsPlain one.toList := ⟨'c', by decide, by decide⟩
  have hstarts : StartsPlain two.toList := ⟨'d', by decide, by decide⟩
  have hok := compile_append h₁ two
  have herror := compile_append h₁ wrong
  rw [h₂] at hok
  rw [h₃] at herror
  obtain ⟨-, -, hfault⟩ := herror (by decide)
  have hlines : one.toList.count '\n' = 1 := by decide
  have hlast : (Mark.lastLine one.toList).length = 2 := by decide
  rw [hlines, hlast] at hfault
  refine ⟨t₁, t₂, d, h₁, h₂, h₃, hline, hcolumn, hends, hstarts, hok.1, _, hfault, rfl, ?_, ?_⟩
  · show d.line.map _ = _
    rw [hline]
    rfl
  · show (if d.line = some 1 then d.column.map _ else d.column) = _
    rw [if_pos hline, hcolumn]
    rfl

end Template
end Spintax
