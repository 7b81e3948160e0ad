import Spintax.Proofs.Grammar

/-!
# Spintax.Proofs.ParserSteps

What one token does to a parser at work, and what every run keeps.

* `State.Reads`: the four ways a token is read; `step_eq_ok_iff` says that there are no others.
* `State.word`: the symbols of all that was read, found again in the frames and parts.
* `State.Fits`: every part and option has the shape of the grammar, with room for as many more
  blocks as the limit leaves.
* `run_word`, `run_fits`: both, along a run.
-/

namespace Spintax
namespace Parser

open Spintax.Tree

/-- Reading a token, where it can stand. -/
inductive State.Reads (limit : Nat) : State → Token → State → Prop where
  | text {s : State} {t : Token} (hk : t.kind = .text) : Reads limit s t (s.addText t)
  | opening {position depth : Nat} {frames : List Frame} {parts : List Tree} {t : Token}
      (hk : t.kind = .opening) (hd : depth + 1 ≤ limit) :
      Reads limit ⟨position, depth, frames, parts⟩ t
        ⟨position + 1, depth + 1, ⟨position, t, parts, []⟩ :: frames, []⟩
  | bar {position depth : Nat} {f : Frame} {frames : List Frame} {part : Tree}
      {parts : List Tree} {t : Token} (hk : t.kind = .bar) :
      Reads limit ⟨position, depth, f :: frames, part :: parts⟩ t
        ⟨position + 1, depth, { f with options := patternOf part parts :: f.options } :: frames,
          []⟩
  | closing {position depth : Nat} {f : Frame} {frames : List Frame} {part : Tree}
      {parts : List Tree} {t : Token} (hk : t.kind = .closing) :
      Reads limit ⟨position, depth, f :: frames, part :: parts⟩ t
        ⟨position + 1, depth - 1, frames,
          blockOf (patternOf part parts) f.options (f.opening.location.spanTo t.location)
            :: f.before⟩

namespace State

variable {limit : Nat} {s s' : State} {t : Token}

theorem step_eq_ok_iff : s.step limit t = .ok s' ↔ Reads limit s t s' := by
  constructor
  · intro h
    obtain ⟨position, depth, frames, parts⟩ := s
    cases hk : t.kind with
    | text =>
      simp only [step, hk] at h
      cases h
      exact .text hk
    | opening =>
      simp only [step, hk, openBlock] at h
      split at h
      · cases h
      · cases h
        exact .opening hk (by omega)
    | bar =>
      simp only [step, hk, nextOption] at h
      cases parts with
      | nil => cases h
      | cons part parts =>
        cases frames with
        | nil => cases h
        | cons f frames =>
          cases h
          exact .bar hk
    | closing =>
      simp only [step, hk, closeBlock] at h
      cases parts with
      | nil => cases h
      | cons part parts =>
        cases frames with
        | nil => cases h
        | cons f frames =>
          cases h
          exact .closing hk
  · intro h
    cases h with
    | text hk => simp [step, hk]
    | opening hk hd =>
      have : ¬ limit < _ := Nat.not_lt.2 hd
      simp [step, hk, openBlock, this]
    | bar hk => simp [step, hk, nextOption]
    | closing hk => simp [step, hk, closeBlock]

theorem run_cons_ok_iff {ts : List Token} :
    s.run limit (t :: ts) = .ok s' ↔ ∃ s₁, Reads limit s t s₁ ∧ s₁.run limit ts = .ok s' := by
  rw [run_cons]
  cases h : s.step limit t with
  | ok s₁ =>
    constructor
    · intro h'
      exact ⟨s₁, step_eq_ok_iff.1 h, h'⟩
    · rintro ⟨s₂, h₂, h'⟩
      rw [← step_eq_ok_iff, h] at h₂
      cases h₂
      exact h'
  | error e =>
    constructor
    · intro h'
      cases h'
    · rintro ⟨s₂, h₂, -⟩
      rw [← step_eq_ok_iff, h] at h₂
      cases h₂

/-! ## The symbols that were read -/

end State

/-- The symbols before the option in progress, back to the start of the pattern around the
block. -/
def Frame.word (f : Frame) : List Symbol :=
  f.before.reverse.flatMap symbols ++ .opening ::
    f.options.reverse.flatMap fun o => o.symbols ++ [.bar]

def State.word (s : State) : List Symbol :=
  s.frames.reverse.flatMap Frame.word ++ s.parts.reverse.flatMap symbols

theorem symbols_patternOf (newest : Tree) (older : List Tree) :
    (patternOf newest older).symbols = (newest :: older).reverse.flatMap symbols := by
  cases h : (newest :: older).reverse with
  | nil => simp at h
  | cons first rest => rw [patternOf_eq h, symbols, symbolsAll_eq, List.flatMap_cons]

/-- The bars stand between the options, whether they are put before the later ones or behind the
earlier ones. -/
theorem bars_between (first last : Tree) (ts : List Tree) :
    first.symbols ++ symbolsBarred (ts ++ [last]) =
      (first :: ts).flatMap (fun o => o.symbols ++ [.bar]) ++ last.symbols := by
  induction ts generalizing first with
  | nil => simp [symbolsBarred]
  | cons t ts ih =>
    have h := ih t
    simp only [List.cons_append, symbolsBarred, List.flatMap_cons, List.append_assoc] at h ⊢
    rw [h]
    simp

theorem symbols_blockOf (newest : Tree) (older : List Tree) (l : Location) :
    (blockOf newest older l).symbols =
      .opening :: (older.reverse.flatMap (fun o => o.symbols ++ [.bar]) ++ newest.symbols ++
        [.closing]) := by
  cases h : older.reverse with
  | nil =>
    have hr : (newest :: older).reverse = newest :: [] := by simp [h]
    rw [blockOf_eq hr, symbols]
    simp [symbolsBarred]
  | cons first rest =>
    have hr : (newest :: older).reverse = first :: (rest ++ [newest]) := by simp [h]
    rw [blockOf_eq hr, symbols, bars_between]

namespace State

variable {limit : Nat} {s s' : State} {t : Token} {ts : List Token}

theorem Reads.word (h : Reads limit s t s') : s'.word = s.word ++ [t.symbol] := by
  cases h with
  | text hk => simp [State.word, addText, symbols, Token.symbol, hk]
  | opening hk hd => simp [State.word, Frame.word, Token.symbol, hk]
  | bar hk => simp [State.word, Frame.word, symbols_patternOf, Token.symbol, hk]
  | closing hk =>
    simp [State.word, Frame.word, symbols_patternOf, symbols_blockOf, Token.symbol, hk]

theorem run_word (h : s.run limit ts = .ok s') : s'.word = s.word ++ ts.map Token.symbol := by
  induction ts generalizing s with
  | nil =>
    cases h
    simp
  | cons t ts ih =>
    obtain ⟨s₁, h₁, h⟩ := run_cons_ok_iff.1 h
    rw [ih h, h₁.word]
    simp

end State

/-! ## The shape of what was read -/

/-- Options and parts of the shape of the grammar, where `n` more blocks may be opened inside the
innermost option. -/
def FramesFit (limit : Nat) : Nat → List Frame → Prop
  | n, [] => n = limit
  | n, f :: frames =>
    (∀ o ∈ f.options, o.IsPattern n) ∧ (∀ p ∈ f.before, p.IsPart (n + 1)) ∧
      FramesFit limit (n + 1) frames

structure State.Fits (limit n : Nat) (s : State) : Prop where
  room : s.depth + n = limit
  parts : ∀ p ∈ s.parts, p.IsPart n
  frames : FramesFit limit n s.frames

theorem FramesFit.room {limit n : Nat} {frames : List Frame} (h : FramesFit limit n frames) :
    n + frames.length = limit := by
  induction frames generalizing n with
  | nil => simpa [FramesFit] using h
  | cons f frames ih =>
    have := ih h.2.2
    simp only [List.length_cons]
    omega

theorem isPattern_patternOf {n : Nat} {newest : Tree} {older : List Tree}
    (h : ∀ p ∈ newest :: older, p.IsPart n) : (patternOf newest older).IsPattern n := by
  cases hr : (newest :: older).reverse with
  | nil => simp at hr
  | cons first rest =>
    have hp : ∀ p ∈ first :: rest, p.IsPart n := by
      intro p hp
      rw [← hr, List.mem_reverse] at hp
      exact h p hp
    rw [patternOf_eq hr]
    exact ⟨hp first (by simp), areParts_iff.2 fun p hm => hp p (by simp [hm])⟩

theorem isPart_blockOf {n : Nat} {newest : Tree} {older : List Tree} (l : Location)
    (h : ∀ o ∈ newest :: older, o.IsPattern n) : (blockOf newest older l).IsPart (n + 1) := by
  cases hr : (newest :: older).reverse with
  | nil => simp at hr
  | cons first rest =>
    have hp : ∀ o ∈ first :: rest, o.IsPattern n := by
      intro o ho
      rw [← hr, List.mem_reverse] at ho
      exact h o ho
    rw [blockOf_eq hr]
    exact ⟨hp first (by simp), arePatterns_iff.2 fun o hm => hp o (by simp [hm])⟩

namespace State

variable {limit n : Nat} {s s' : State} {t : Token} {ts : List Token}

theorem Reads.fits (h : Reads limit s t s') (hf : s.Fits limit n) : ∃ m, s'.Fits limit m := by
  obtain ⟨hroom, hparts, hframes⟩ := hf
  cases h with
  | text hk =>
    refine ⟨n, hroom, ?_, hframes⟩
    intro p hp
    rcases List.mem_cons.1 hp with rfl | hp
    · simp [IsPart]
    · exact hparts p hp
  | opening hk hd =>
    cases n with
    | zero =>
      simp only at hroom
      omega
    | succ n =>
      refine ⟨n, ?_, by simp, by simp, hparts, hframes⟩
      simp only at hroom ⊢
      omega
  | bar hk =>
    obtain ⟨ho, hb, hrest⟩ := hframes
    refine ⟨n, hroom, by simp, ?_, hb, hrest⟩
    intro o hm
    rcases List.mem_cons.1 hm with rfl | hm
    · exact isPattern_patternOf hparts
    · exact ho o hm
  | closing hk =>
    have hlen := hframes.room
    obtain ⟨ho, hb, hrest⟩ := hframes
    refine ⟨n + 1, ?_, ?_, hrest⟩
    · simp only [List.length_cons] at hroom hlen ⊢
      omega
    · intro p hp
      rcases List.mem_cons.1 hp with rfl | hp
      · refine isPart_blockOf _ fun o hm => ?_
        rcases List.mem_cons.1 hm with rfl | hm
        · exact isPattern_patternOf hparts
        · exact ho o hm
      · exact hb p hp

theorem run_fits (h : s.run limit ts = .ok s') (hf : s.Fits limit n) : ∃ m, s'.Fits limit m := by
  induction ts generalizing s n with
  | nil =>
    cases h
    exact ⟨n, hf⟩
  | cons t ts ih =>
    obtain ⟨s₁, h₁, h⟩ := run_cons_ok_iff.1 h
    obtain ⟨m, hm⟩ := h₁.fits hf
    exact ih h hm

theorem start_fits (limit : Nat) : (start 0 0).Fits limit limit :=
  ⟨by simp [start], by simp [start], rfl⟩

@[simp] theorem start_word (position depth : Nat) : (start position depth).word = [] := rfl

/-- A tree is finished where no block is open. It is written with what was read, and has the shape
of the grammar. -/
theorem finish_ok {tree : Tree} (h : s.finish = .ok tree) (hf : s.Fits limit n) :
    tree.symbols = s.word ∧ tree.IsPattern limit := by
  obtain ⟨position, depth, frames, parts⟩ := s
  cases parts with
  | nil => cases h
  | cons part parts =>
    cases frames with
    | nil =>
      cases h
      have hn : n = limit := hf.frames
      subst hn
      exact ⟨by simp [symbols_patternOf, State.word], isPattern_patternOf hf.parts⟩
    | cons f frames => cases h

end State
end Parser
end Spintax
