import Spintax.Config
import Spintax.Proofs.Registers

/-!
# Spintax.Proofs.Activations

How many productions are active at once. A block that is one too many ends before the pattern inside
it starts, so the limit on open blocks bounds the recursion, whatever the tokens are.

* `Cursor.room`: how many more blocks may be opened.
* `pattern_of_budget`, `block_of_budget`: a budget of two activations for each of them, and of those
  that are active already, is not noticed.
* `budget_suffices`: neither is one of `2 * limit + 2`, in any call on a parser.
* `budget_needed`: one less can run out.
-/

namespace Spintax
namespace Descent

open Spintax.Parser

variable {ts : List Token} {limit : Nat}

/-- How many more blocks may be opened. Behind a fault of depth there may be too many already. -/
def Cursor.room (limit : Nat) (c : Cursor ts) : Nat :=
  (limit - c.depth).toNat

theorem Cursor.room_of_depth {c c' : Cursor ts} (h : c'.depth = c.depth) :
    c'.room limit = c.room limit := by
  rw [room, room, h]

/-! ## The productions

By induction on the tokens that are left, as the productions recurse. A pattern needs two
activations for each block that may be opened, and two for the block that is one too many; a block
needs one less. A loop needs what is left to its production, and as each tree leaves the depth as it
was, it still needs no more behind the tree. -/

mutual

theorem pattern_of_budget {budget : Nat} (c : Cursor ts) (h : 2 * c.room limit + 2 ≤ budget) :
    pattern limit (some budget) c = pattern limit none c := by
  obtain ⟨within, rfl⟩ : ∃ within, budget = within + 1 := ⟨budget - 1, by omega⟩
  have hspend : spend (some (within + 1)) = some (some within) := rfl
  rw [pattern_eq_parts c hspend, pattern_eq_parts c rfl]
  exact parts_of_budget c [] _ _ (Nat.le_of_succ_le_succ h)
termination_by (ts.length - c.position, 2)

theorem parts_of_budget {budget start : Nat} (c : Cursor ts) (read : List Tree)
    (hs : start ≤ c.position) (hr : read ≠ [] → start < c.position)
    (h : 2 * c.room limit + 1 ≤ budget) :
    parts limit (some budget) start read c hs hr = parts limit none start read c hs hr := by
  obtain hstands | ⟨t, ht, hk⟩ | ⟨t, ht, hk⟩ := c.stands_or
  · rw [parts_of_stands hstands, parts_of_stands hstands]
  · have hlt := Cursor.position_lt ht
    rw [parts_of_text ht hk, parts_of_text ht hk]
    exact parts_of_budget (c.advance ht c.depth) _ _ _ h
  · have hlt := Cursor.position_lt ht
    have hblock := block_of_budget c ht h
    have hkeeps : (block limit none c).Keeps c := block_keeps none c ht hk
    cases hb : block limit none c with
    | done b c' hmoved =>
      rw [hb] at hblock hkeeps
      rw [parts_of_done ht hk hs hr hblock, parts_of_done ht hk hs hr hb]
      have hroom : 2 * c'.room limit + 1 ≤ budget := by
        rw [Cursor.room_of_depth hkeeps.2]
        exact h
      exact parts_of_budget c' _ _ _ hroom
    | exit e c' =>
      rw [hb] at hblock
      rw [parts_of_exit ht hk hs hr hblock, parts_of_exit ht hk hs hr hb]
termination_by (ts.length - c.position, 1)

theorem block_of_budget {budget : Nat} (c : Cursor ts) {t : Token} (ht : c.current = some t)
    (h : 2 * c.room limit + 1 ≤ budget) :
    block limit (some budget) c = block limit none c := by
  obtain ⟨within, rfl⟩ : ∃ within, budget = within + 1 := ⟨budget - 1, by omega⟩
  have hlt := Cursor.position_lt ht
  have hspend : spend (some (within + 1)) = some (some within) := rfl
  by_cases hd : (limit : Int) < c.depth + 1
  · rw [block_of_over ht hspend hd, block_of_over ht rfl hd]
  · have hroom : 2 * (c.advance ht (c.depth + 1)).room limit + 2 ≤ within := by
      rw [Cursor.room] at h
      rw [Cursor.room, Cursor.advance_depth]
      omega
    have hpattern := pattern_of_budget (c.advance ht (c.depth + 1)) hroom
    have hkeeps : (pattern limit none (c.advance ht (c.depth + 1))).Keeps _ := pattern_keeps _ _
    cases hp : pattern limit none (c.advance ht (c.depth + 1)) with
    | done option c' hmoved =>
      rw [hp] at hpattern hkeeps
      have hmoved' : c.position < c'.position := Nat.lt_of_succ_lt hmoved
      rw [block_of_done ht hspend hd hpattern, block_of_done ht rfl hd hp]
      rw [← Cursor.room_of_depth hkeeps.2] at hroom
      exact options_of_budget c' _ _ hroom
    | exit e c' =>
      rw [hp] at hpattern
      rw [block_of_exit ht hspend hd hpattern, block_of_exit ht rfl hd hp]
termination_by (ts.length - c.position, 0)

theorem options_of_budget {budget start : Nat} {opening : Token} (c : Cursor ts)
    (read : List Tree) (hs : start < c.position) (h : 2 * c.room limit + 2 ≤ budget) :
    options limit (some budget) start opening read c hs =
      options limit none start opening read c hs := by
  obtain ⟨t, ht, hk⟩ | hbar := c.bar_or
  · have hlt := Cursor.position_lt ht
    have hpattern := pattern_of_budget (c.advance ht c.depth) h
    have hkeeps : (pattern limit none (c.advance ht c.depth)).Keeps _ := pattern_keeps _ _
    cases hp : pattern limit none (c.advance ht c.depth) with
    | done option c' hmoved =>
      rw [hp] at hpattern hkeeps
      have hmoved' : c.position < c'.position := Nat.lt_of_succ_lt hmoved
      rw [options_of_done ht hk hs hpattern, options_of_done ht hk hs hp]
      have hroom : 2 * c'.room limit + 2 ≤ budget := by
        rw [Cursor.room_of_depth hkeeps.2]
        exact h
      exact options_of_budget c' _ _ hroom
    | exit e c' =>
      rw [hp] at hpattern
      rw [options_of_exit ht hk hs hpattern, options_of_exit ht hk hs hp]
  · rw [options_of_end hbar, options_of_end hbar]
termination_by (ts.length - c.position, 3)

end

/-! ## Any number of calls -/

theorem parse_of_budget {budget : Nat} (c : Cursor ts) (h : 2 * c.room limit + 2 ≤ budget) :
    parse limit (some budget) c = parse limit none c := by
  rw [parse, parse, pattern_of_budget c h]

theorem Cursor.Sound.room_le {c : Cursor ts} (h : c.Sound) : c.room limit ≤ limit := by
  have hdepth := h.depth_nonneg
  rw [room]
  omega

theorem parse_after_of_budget {budget : Nat} (h : 2 * limit + 2 ≤ budget) (n : Nat) :
    parse limit (some budget) (Cursor.after limit ts n) =
      parse limit none (Cursor.after limit ts n) := by
  have hroom : (Cursor.after limit ts n).room limit ≤ limit := (after_sound limit ts n).room_le
  exact parse_of_budget _ (by omega)

theorem after_of_budget {budget : Nat} (h : 2 * limit + 2 ≤ budget) (n : Nat) :
    (fun c => (parse limit (some budget) c).2)^[n] (Cursor.start ts) = Cursor.after limit ts n := by
  induction n with
  | zero => rfl
  | succ n ih =>
    rw [Function.iterate_succ_apply', ih, parse_after_of_budget h, Cursor.after_succ]

/-- The recursion of a parser is bounded by its limit, not by its tokens. After any number of calls,
a call with no more than `2 * maxDepth + 2` activations at once comes to what a call without a bound
comes to, which is what the parser comes to; it never runs out. The earlier calls may have been
bounded as well. No configuration allows more than 514 activations. -/
theorem budget_suffices (config : Config) (file : Option String) (tokens : List Token) (n : Nat) :
    let p := (fresh config.maxDepth file tokens).after n
    let c := Cursor.after config.maxDepth tokens n
    let budget := 2 * config.maxDepth + 2
    let bounded := Descent.parse config.maxDepth (some budget)
    c.At p ∧
    bounded c = Descent.parse config.maxDepth none c ∧
    (bounded c).1 = p.parse.1.mapError .fault ∧ (bounded c).2.At p.parse.2 ∧
    (bounded c).1 ≠ .error .exhausted ∧
    (fun c => (bounded c).2)^[n] (Cursor.start tokens) = c ∧
    budget ≤ 514 := by
  intro p c budget bounded
  have hat : c.At p := after_at config.maxDepth file tokens n
  have hlimit : p.limit = config.maxDepth :=
    ((fresh config.maxDepth file tokens).after_kept n).2.2
  have heq : bounded c = Descent.parse config.maxDepth none c :=
    parse_after_of_budget (Nat.le_refl _) n
  obtain ⟨hresult, hafter⟩ := hat.parse
  rw [hlimit, ← heq] at hresult hafter
  have hceiling : config.maxDepth ≤ 256 := config.maxDepth_le
  refine ⟨hat, heq, hresult, hafter, ?_, after_of_budget (Nat.le_refl _) n, by omega⟩
  rw [hresult]
  cases p.parse.1 with
  | ok t => exact nofun
  | error f => exact nofun

/-- Two blocks where one may be open, and a second call behind the fault. -/
theorem budget_suffices_too_deep :
    let token (kind : Token.Kind) (value : String) : Token := ⟨kind, value, .unknown⟩
    let tokens := [token .opening "\x7b", token .opening "\x7b", token .text "a",
      token .closing "\x7d"]
    (Descent.parse 1 (some 4) (Cursor.after 1 tokens 0)).1 =
        .error (.fault ⟨.tooDeep 1, some 1⟩) ∧
      (Descent.parse 1 (some 4) (Cursor.after 1 tokens 1)).1 =
        .error (.fault ⟨.emptyOption "\x7d", some 3⟩) := by
  intro token tokens
  let config : Config := { maxDepth := 1 }
  obtain ⟨-, -, hfirst, -⟩ := budget_suffices config none tokens 0
  obtain ⟨-, -, hsecond, -⟩ := budget_suffices config none tokens 1
  exact ⟨hfirst, hsecond⟩

/-! ## The least budget -/

theorem pattern_exhausted {t : Token} (hk : t.kind = .opening) {left : Nat}
    (c : Cursor (List.replicate (limit + 1) t)) (hp : c.position + left = limit)
    (hd : c.depth = c.position) :
    ∃ c', pattern limit (some (2 * left + 1)) c = .exit .exhausted c' := by
  have ht : c.current = some t := by
    rw [c.current_eq, List.getElem?_replicate, if_pos (by omega)]
  induction left generalizing c with
  | zero =>
    have hblock : block limit (some 0) c = .exit .exhausted c := block_of_spent c rfl
    rw [pattern_eq_parts c rfl, parts_of_exit ht hk _ _ hblock]
    exact ⟨c, rfl⟩
  | succ left ih =>
    have hinside : ((c.advance ht (c.depth + 1)).current) = some t := by
      rw [Cursor.current_eq, Cursor.advance_position, List.getElem?_replicate, if_pos (by omega)]
    obtain ⟨c', hpattern⟩ := ih (c.advance ht (c.depth + 1))
      (by rw [Cursor.advance_position]; omega)
      (by rw [Cursor.advance_position, Cursor.advance_depth]; omega) hinside
    have hblock : block limit (some (2 * left + 2)) c = .exit .exhausted c' :=
      block_of_exit ht rfl (by omega) hpattern
    have hspend : spend (some (2 * (left + 1) + 1)) = some (some (2 * left + 2)) := rfl
    rw [pattern_eq_parts c hspend, parts_of_exit ht hk _ _ hblock]
    exact ⟨c', rfl⟩

/-- With one activation less, opening braces alone exhaust the budget, one more than may be open. -/
theorem budget_needed (limit : Nat) {t : Token} (hk : t.kind = .opening) :
    (Descent.parse limit (some (2 * limit + 1))
      (Cursor.start (List.replicate (limit + 1) t))).1 = .error .exhausted := by
  let c : Cursor (List.replicate (limit + 1) t) := Cursor.start _
  obtain ⟨c', h⟩ := pattern_exhausted hk c (Nat.zero_add limit) rfl
  rw [Descent.parse, h]

end Descent
end Spintax
