import Mathlib.Data.List.Forall2
import Spintax.Chooser
import Spintax.Proofs.Meanings
import Spintax.Proofs.Spelling

/-!
# Spintax.Proofs.Language

The texts that a tree can become, and the choices that make it become them.

* `Tree.Makes t w`: the text `w` is in the language of the tree `t`. A text makes itself, a pattern
  one text of each part, one behind the other, and a block a text of any of its options.
* `Tree.Proper`: a tree of patterns, blocks and texts only. All compiled trees are.
* `Evaluation.Fair draw s`: from the state `s` on, every pick is below its bound and not negative.
* `denote_makes`: with a fair source a proper tree becomes a text of its language.
* `exists_picks`: for every text of the language there are picks that make it.
* `evaluate_makes_language`: both, for the evaluator.
-/

namespace Spintax
namespace Tree

mutual

/-- The texts that a tree can become. -/
inductive Makes : Tree → String → Prop where
  | text {content : String} {l : Location} : Makes (.text content l) content
  | pattern {first : Tree} {rest : List Tree} {l : Location} {w : String} :
      MakesAll (first :: rest) w → Makes (.pattern first rest l) w
  | block {first option : Tree} {rest : List Tree} {l : Location} {w : String} :
      option ∈ first :: rest → Makes option w → Makes (.block first rest l) w

/-- One text of each tree, one behind the other. -/
inductive MakesAll : List Tree → String → Prop where
  | nil : MakesAll [] ""
  | cons {t : Tree} {ts : List Tree} {v w : String} :
      Makes t v → MakesAll ts w → MakesAll (t :: ts) (v ++ w)

end

/-- Neither a plain value nor a node of no kind stands in the tree. -/
structure Proper (t : Tree) : Prop where
  valueless : t.Valueless
  not_bare : ∀ l, ¬ (Tree.bare l).Within t

theorem Proper.child {c t : Tree} (h : t.Proper) (hc : c ∈ t.children) : c.Proper :=
  ⟨h.valueless.child hc, fun l hl => h.not_bare l (.child hc hl)⟩

theorem Proper.of_children {t : Tree} (hv : ∀ v, t ≠ .value v) (hb : ∀ l, t ≠ .bare l)
    (h : ∀ c ∈ t.children, c.Proper) : t.Proper := by
  constructor
  · intro v hw
    cases hw with
    | self => exact hv v rfl
    | child hc hw => exact (h _ hc).valueless v hw
  · intro l hw
    cases hw with
    | self => exact hb l rfl
    | child hc hw => exact (h _ hc).not_bare l hw

theorem proper_text (content : String) (l : Location) : (text content l).Proper :=
  .of_children (fun _ h => by cases h) (fun _ h => by cases h) fun _ h => absurd h List.not_mem_nil

theorem proper_pattern {first : Tree} {rest : List Tree} {l : Location}
    (h : ∀ c ∈ first :: rest, c.Proper) : (pattern first rest l).Proper :=
  .of_children (fun _ h => by cases h) (fun _ h => by cases h) h

theorem proper_block {first : Tree} {rest : List Tree} {l : Location}
    (h : ∀ c ∈ first :: rest, c.Proper) : (block first rest l).Proper :=
  .of_children (fun _ h => by cases h) (fun _ h => by cases h) h

theorem IsShaped.proper {n : Nat} {t : Tree} (h : t.IsShaped n) : t.Proper := by
  refine ⟨h.valueless, fun l hl => ?_⟩
  rcases h.within hl with h | h
  · simp [IsPattern] at h
  · cases n <;> simp [IsPart] at h

end Tree

theorem Template.proper_of_compile {limit : Nat} {file : Option String} {text : String} {t : Tree}
    (h : (compile limit file text).value = .ok t) : t.Proper := by
  obtain ⟨xs, hx⟩ := exists_cut_of_compile h
  exact Tree.IsShaped.proper (.inl hx.isPattern)

namespace Evaluation

open Spintax.Tree (Makes MakesAll)

/-! ## Fair sources -/

section Fair

variable {σ ε : Type} {draw : Source σ ε}

/-- A pick that is a number of an option, counted from the first. -/
def InRange (pick bound : Int) : Prop :=
  0 ≤ pick ∧ pick < bound

/-- The states that draws lead to from `s`. -/
inductive Reaches (draw : Source σ ε) (s : σ) : σ → Prop where
  | refl : Reaches draw s s
  | step {s' : σ} {bound : Int} :
      Reaches draw s s' → 1 ≤ bound → Reaches draw s (draw s' bound).2

/-- Every draw from `s` on gives a pick that is in range. -/
def Fair (draw : Source σ ε) (s : σ) : Prop :=
  ∀ s', Reaches draw s s' → ∀ bound, 1 ≤ bound →
    ∃ pick, (draw s' bound).1 = .ok pick ∧ InRange pick bound

theorem Reaches.trans {s s₁ s₂ : σ} (h₁ : Reaches draw s s₁) (h₂ : Reaches draw s₁ s₂) :
    Reaches draw s s₂ := by
  induction h₂ with
  | refl => exact h₁
  | step _ hb ih => exact .step ih hb

theorem Fair.step {s : σ} (h : Fair draw s) {bound : Int} (hb : 1 ≤ bound) :
    Fair draw (draw s bound).2 :=
  fun s' hs => h s' (Reaches.trans (.step .refl hb) hs)

theorem fair_seeded (g : Twister) : Fair Chooser.draw (.seeded g) := by
  have hseeded : ∀ c, Reaches Chooser.draw (.seeded g) c → ∃ g', c = .seeded g' := by
    intro c hc
    induction hc with
    | refl => exact ⟨g, rfl⟩
    | step _ hb ih =>
      obtain ⟨g', rfl⟩ := ih
      rw [Chooser.draw, if_neg (by omega)]
      exact ⟨_, rfl⟩
  intro c hc bound hb
  obtain ⟨g', rfl⟩ := hseeded c hc
  obtain ⟨n, hn, hdraw⟩ := Chooser.draw_seeded (by omega : 0 < bound) g'
  exact ⟨n, hdraw, Int.natCast_nonneg n, hn⟩

/-! ## Every run makes a text of the language -/

theorem denote_block_of_draw {first option : Tree} {rest : List Tree} {l : Location} {s s' : σ}
    {pick : Int} (hd : draw s (first :: rest).length = (.ok pick, s'))
    (hp : pick? (first :: rest) pick = some option) :
    denote draw (.block first rest l) s =
      { denote draw option s' with
        bounds := ((first :: rest).length : Int) :: (denote draw option s').bounds } := by
  rw [denote_block, hd]
  simp only [hp]

theorem one_le_length_cons {α : Type} (x : α) (xs : List α) : (1 : Int) ≤ (x :: xs).length := by
  rw [List.length_cons]
  omega

theorem exists_pick {α : Type} (xs : List α) {pick : Int} (h : InRange pick xs.length) :
    ∃ x ∈ xs, pick? xs pick = some x := by
  have hsome : (pick? xs pick).isSome := (pick?_isSome_iff xs pick).2 ⟨by have := h.1; omega, h.2⟩
  obtain ⟨x, hx⟩ := Option.isSome_iff_exists.1 hsome
  exact ⟨x, mem_of_pick? hx, hx⟩

theorem denoteAll_makes {ts : List Tree}
    (h : ∀ t ∈ ts, ∀ s, Fair draw s →
      ∃ w, (denote draw t s).result = .ok w ∧ t.Makes w ∧ Fair draw (denote draw t s).source) :
    ∀ s, Fair draw s → ∃ w, (denoteAll draw ts s).result = .ok w ∧ MakesAll ts w ∧
      Fair draw (denoteAll draw ts s).source := by
  induction ts with
  | nil => exact fun s hs => ⟨"", rfl, .nil, hs⟩
  | cons t ts ih =>
    intro s hs
    obtain ⟨v, hv, hmv, hs₁⟩ := h t (by simp) s hs
    obtain ⟨w, hw, hmw, hs₂⟩ := ih (fun u hu => h u (by simp [hu])) _ hs₁
    refine ⟨v ++ w, ?_, .cons hmv hmw, ?_⟩
    · simp only [denoteAll, Meaning.andThen, hv, hw]
      rfl
    · simp only [denoteAll, Meaning.andThen, hv]
      exact hs₂

/-- With a fair source a proper tree becomes a text of its language, and the source stays fair. -/
theorem denote_makes (t : Tree) (ht : t.Proper) :
    ∀ s, Fair draw s →
      ∃ w, (denote draw t s).result = .ok w ∧ t.Makes w ∧ Fair draw (denote draw t s).source := by
  induction t with
  | text content l => exact fun s hs => ⟨content, rfl, .text, hs⟩
  | pattern first rest l hf hr =>
    intro s hs
    have heach : ∀ c ∈ first :: rest, ∀ s, Fair draw s →
        ∃ w, (denote draw c s).result = .ok w ∧ c.Makes w ∧
          Fair draw (denote draw c s).source := by
      intro c hc
      rcases List.mem_cons.1 hc with rfl | hm
      · exact hf (ht.child hc)
      · exact hr c hm (ht.child hc)
    obtain ⟨w, hw, hmakes, hfair⟩ := denoteAll_makes heach s hs
    exact ⟨w, hw, .pattern hmakes, hfair⟩
  | block first rest l hf hr =>
    intro s hs
    have hb := one_le_length_cons first rest
    obtain ⟨pick, hdraw, hpick⟩ := hs s .refl _ hb
    obtain ⟨option, hoption, hp⟩ := exists_pick _ hpick
    have hfair := hs.step hb
    have hmakes : ∃ w, (denote draw option (draw s (first :: rest).length).2).result = .ok w ∧
        option.Makes w ∧
          Fair draw (denote draw option (draw s (first :: rest).length).2).source := by
      rcases List.mem_cons.1 hoption with rfl | hm
      · exact hf (ht.child hoption) _ hfair
      · exact hr option hm (ht.child hoption) _ hfair
    obtain ⟨w, hw, hmakes, hfair'⟩ := hmakes
    rw [denote_block_of_draw (Prod.ext hdraw rfl) hp]
    exact ⟨w, hw, .block hoption hmakes, hfair'⟩
  | bare l => exact absurd .self (ht.not_bare l)
  | value v => exact absurd .self (ht.valueless v)

theorem denoteAll_bounds {ts : List Tree}
    (h : ∀ t ∈ ts, ∀ s, ∀ b ∈ (denote draw t s).bounds, 1 ≤ b) :
    ∀ s, ∀ b ∈ (denoteAll draw ts s).bounds, 1 ≤ b := by
  induction ts with
  | nil => exact fun s b hb => absurd hb List.not_mem_nil
  | cons t ts ih =>
    intro s b hb
    have ht := h t (by simp)
    have hts := ih fun u hu => h u (by simp [hu])
    rw [denoteAll, Meaning.andThen] at hb
    split at hb
    · exact ht s b hb
    · rcases List.mem_append.1 hb with hb | hb
      · exact ht s b hb
      · exact hts _ b hb

/-- Whatever the tree and the source, no bound is less than 1. -/
theorem one_le_bounds (t : Tree) : ∀ s, ∀ b ∈ (denote draw t s).bounds, 1 ≤ b := by
  induction t with
  | text content l => exact fun s b hb => absurd hb List.not_mem_nil
  | pattern first rest l hf hr => exact denoteAll_bounds (List.forall_mem_cons.2 ⟨hf, hr⟩)
  | block first rest l hf hr =>
    intro s b hb
    have hlen := one_le_length_cons first rest
    rw [denote_block] at hb
    rcases hd : draw s (first :: rest).length with ⟨e | pick, s'⟩
    · rw [hd] at hb
      rw [List.mem_singleton.1 hb]
      exact hlen
    · cases hp : pick? (first :: rest) pick with
      | none =>
        simp only [hd, hp] at hb
        rw [List.mem_singleton.1 hb]
        exact hlen
      | some option =>
        simp only [hd, hp] at hb
        rcases List.mem_cons.1 hb with rfl | hb'
        · exact hlen
        · rcases List.mem_cons.1 (mem_of_pick? hp) with rfl | hm
          · exact hf s' b hb'
          · exact hr option hm s' b hb'
  | bare l => exact fun s b hb => absurd hb List.not_mem_nil
  | value v => exact fun s b hb => absurd hb List.not_mem_nil

end Fair

/-! ## Every text of the language is made by some picks -/

/-- These picks, asked for with these bounds, make the meaning a text, and picks behind them are
left over. -/
def MadeBy (meaning : Chooser → Meaning Chooser Chooser.Refusal) (w : String) (picks : List Int)
    (bounds : List Int) : Prop :=
  List.Forall₂ InRange picks bounds ∧
    ∀ more, meaning (.scripted (picks ++ more)) = ⟨.ok w, bounds, .scripted more⟩

theorem exists_index {α : Type} {xs : List α} {x : α} (h : x ∈ xs) :
    ∃ pick : Int, InRange pick xs.length ∧ pick? xs pick = some x := by
  obtain ⟨i, hi, rfl⟩ := List.getElem_of_mem h
  refine ⟨i, ⟨by omega, by omega⟩, ?_⟩
  rw [pick?_natCast, List.getElem?_eq_getElem hi]

mutual

theorem exists_picks {t : Tree} {w : String} :
    t.Makes w → ∃ picks bounds, MadeBy (denote Chooser.draw t) w picks bounds
  | .text => ⟨[], [], .nil, fun _ => rfl⟩
  | .pattern h => exists_picksAll h
  | @Makes.block first option rest l _ hoption h => by
    obtain ⟨picks, bounds, hrange, hmade⟩ := exists_picks h
    obtain ⟨pick, hpick, hp⟩ := exists_index hoption
    refine ⟨pick :: picks, (first :: rest).length :: bounds, .cons hpick hrange, fun more => ?_⟩
    rw [List.cons_append, denote_block_of_draw rfl hp, hmade more]

theorem exists_picksAll {ts : List Tree} {w : String} :
    MakesAll ts w → ∃ picks bounds, MadeBy (denoteAll Chooser.draw ts) w picks bounds
  | .nil => ⟨[], [], .nil, fun _ => rfl⟩
  | @MakesAll.cons t ts v w h h' => by
    obtain ⟨picks, bounds, hrange, hmade⟩ := exists_picks h
    obtain ⟨picks', bounds', hrange', hmade'⟩ := exists_picksAll h'
    refine ⟨picks ++ picks', bounds ++ bounds', List.rel_append hrange hrange', fun more => ?_⟩
    rw [denoteAll, List.append_assoc, hmade, andThen_ok, hmade']
    rfl

end

/-- The evaluator and the language of a tree of patterns, blocks and texts, such as compiling gives.
With a fair source there is always a text, it is in the language, and every bound asked for is at
least 1. Every text of the language comes of some list of picks in range, and all of them are
used. -/
theorem evaluate_makes_language {t : Tree}
    (h : t.Proper ∨ ∃ limit file text, (Template.compile limit file text).value = .ok t) :
    (∀ {σ ε : Type} (draw : Source σ ε) (s : σ), Fair draw s →
      ∃ w s' bounds, evaluate draw t s = (.ok w, s') ∧
        evaluate (logged draw) t (s, []) = (.ok w, s', bounds) ∧
        t.Makes w ∧ ∀ b ∈ bounds, 1 ≤ b) ∧
    ∀ w, t.Makes w → ∃ picks bounds, List.Forall₂ InRange picks bounds ∧
      evaluate Chooser.draw t (.scripted picks) = (.ok w, .scripted []) ∧
      evaluate (logged Chooser.draw) t (.scripted picks, []) =
        (.ok w, .scripted [], bounds) := by
  have ht : t.Proper := by
    rcases h with h | ⟨limit, file, text, h⟩
    · exact h
    · exact Template.proper_of_compile h
  constructor
  · intro σ ε draw s hs
    obtain ⟨w, hw, hmakes, -⟩ := denote_makes t ht s hs
    refine ⟨w, (denote draw t s).source, (denote draw t s).bounds, ?_, ?_, hmakes,
      one_le_bounds t s⟩
    · rw [evaluate_eq, hw]
    · rw [evaluate_eq, denote_logged]
      simp only [Meaning.withLog, hw, List.nil_append]
  · intro w hw
    obtain ⟨picks, bounds, hrange, hmade⟩ := exists_picks hw
    have h := hmade []
    rw [List.append_nil] at h
    refine ⟨picks, bounds, hrange, ?_, ?_⟩
    · rw [evaluate_eq, h]
    · rw [evaluate_eq, denote_logged, h]
      rfl

/-- A block of a bare text and of a pattern with one more block in it: with a seed some text comes
out, and the text that takes the last option twice comes of some picks. -/
theorem evaluate_makes_language_nested :
    let text (content : String) : Tree := .text content .unknown
    let inner : Tree := .pattern (.block (text "b") [text "c"] .unknown) [text "d"] .unknown
    let tree : Tree := .pattern (text "x") [.block (text "a") [inner] .unknown] .unknown
    tree.Proper ∧ Fair Chooser.draw (.seeded (.ofSeed 7)) ∧ tree.Makes "xcd" ∧
      (∃ w c, evaluate Chooser.draw tree (.seeded (.ofSeed 7)) = (.ok w, c) ∧ tree.Makes w) ∧
      ∃ picks bounds, List.Forall₂ InRange picks bounds ∧
        evaluate Chooser.draw tree (.scripted picks) = (.ok "xcd", .scripted []) := by
  intro text inner tree
  have htext : ∀ content, (text content).Proper := fun content => Tree.proper_text content .unknown
  have hinner : inner.Proper := by
    refine Tree.proper_pattern (List.forall_mem_cons.2 ⟨Tree.proper_block ?_, ?_⟩)
    · simp [htext]
    · simp [htext]
  have hproper : tree.Proper := by
    refine Tree.proper_pattern (List.forall_mem_cons.2 ⟨htext "x", ?_⟩)
    refine List.forall_mem_cons.2 ⟨Tree.proper_block ?_, by simp⟩
    simp [htext, hinner]
  have hblock : (Tree.block (text "b") [text "c"] .unknown).Makes "c" :=
    .block (List.mem_cons_of_mem _ List.mem_cons_self) .text
  have hmakes : tree.Makes "xcd" :=
    .pattern (.cons (v := "x") (w := "cd") .text
      (.cons (v := "cd") (w := "")
        (.block (List.mem_cons_of_mem _ List.mem_cons_self)
          (.pattern (.cons (v := "c") (w := "d") hblock (.cons (v := "d") (w := "") .text .nil))))
        .nil))
  obtain ⟨hsound, hcomplete⟩ := evaluate_makes_language (.inl hproper)
  have hfair : Fair Chooser.draw (.seeded (.ofSeed 7)) := fair_seeded _
  obtain ⟨w, c, -, hw, -, hmw, -⟩ := hsound Chooser.draw _ hfair
  obtain ⟨picks, bounds, hrange, hpicks, -⟩ := hcomplete "xcd" hmakes
  exact ⟨hproper, hfair, hmakes, ⟨w, c, hw, hmw⟩, picks, bounds, hrange, hpicks⟩

end Evaluation
end Spintax
