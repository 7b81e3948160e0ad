import Mathlib.Logic.Function.Iterate
import Spintax.Proofs.DepthGate

/-!
# Spintax.Proofs.LaterCalls

What a parser does when it is called again. A fault puts neither the position nor the depth back,
so a call may start anywhere in the tokens, at any depth, and knows nothing of the blocks that
earlier calls have left open.

* `Parser.seek`, `Parser.after`: a parser elsewhere in its tokens, and after some calls.
* `Ends p`: the five ways in which a call on `p` ends. `parse_ends` says that there are no others.
* `parse_of_refused`, `parse_of_ended`: where a token was refused, and at the end, a call changes
  nothing.
* `openings_passed`: a call that ends in a fault of depth has passed an opening brace.
* `calls_settle`: what a call says of all later ones.
-/

namespace Spintax
namespace Parser

variable {p : Parser} {limit : Nat} {s s' : State} {t : Token} {us : List Token}

def seek (p : Parser) (position depth : Nat) : Parser :=
  { p with position := position, depth := depth }

/-- The parser after so many calls. -/
def after (p : Parser) (calls : Nat) : Parser :=
  (fun q : Parser => q.parse.2)^[calls] p

theorem after_succ (p : Parser) (n : Nat) : p.after (n + 1) = (p.after n).parse.2 :=
  Function.iterate_succ_apply' _ n p

/-- Where a call changes nothing, no later one does. -/
theorem after_settled {n m : Nat} (h : (p.after n).parse.2 = p.after n) (hm : n ≤ m) :
    p.after m = p.after n := by
  obtain ⟨k, rfl⟩ := Nat.exists_eq_add_of_le hm
  rw [after, Nat.add_comm, Function.iterate_add_apply]
  exact Function.iterate_fixed h k

/-! ## One call -/

/-- The index of the last token, which is blamed where a pattern is missing at the end. -/
def lastIndex? (tokens : List Token) : Option Nat :=
  if tokens.length = 0 then none else some (tokens.length - 1)

/-- How a call on `p` ends: with a tree or a fault, and with the parser that it leaves. -/
inductive Ends (p : Parser) : Except Fault Tree × Parser → Prop where
  | tree {t : Tree} (h : p.position < p.tokens.length) :
      Ends p (.ok t, p.seek p.tokens.length p.depth)
  | endOfInput {depth : Nat} (h : p.depth ≤ depth) :
      Ends p (.error ⟨.endOfInput, lastIndex? p.tokens⟩, p.seek p.tokens.length depth)
  | unterminated {i depth : Nat} (h : p.position < p.tokens.length) (hd : p.depth < depth) :
      Ends p (.error ⟨.unterminated, some i⟩, p.seek p.tokens.length depth)
  | refused {i depth : Nat} {t : Token} (h : p.position ≤ i) (ht : p.tokens[i]? = some t)
      (hk : t.kind = .closing ∨ t.kind = .bar) (hd : p.depth ≤ depth) :
      Ends p (.error ((State.start i depth).refuse t.value).fault, p.seek i depth)
  | tooDeep {i depth : Nat} {t : Token} (h : p.position ≤ i) (ht : p.tokens[i]? = some t)
      (hk : t.kind = .opening) (hd : p.depth ≤ depth) (hl : p.limit < depth + 1) :
      Ends p (.error ⟨.tooDeep p.limit, some i⟩, p.seek (i + 1) (depth + 1))

namespace State

theorem Reads.position (h : Reads limit s t s') : s'.position = s.position + 1 := by
  cases h <;> rfl

theorem run_position (h : s.run limit us = .ok s') : s'.position = s.position + us.length := by
  induction us generalizing s with
  | nil =>
    cases h
    rfl
  | cons t us ih =>
    obtain ⟨s₁, h₁, h⟩ := run_cons_ok_iff.1 h
    rw [ih h, h₁.position, List.length_cons]
    omega

/-- The depth counts the open blocks on top of what it was at the start. -/
theorem Reads.depth {d : Nat} (h : Reads limit s t s') (hs : s.depth = d + s.frames.length) :
    s'.depth = d + s'.frames.length := by
  cases h with
  | text hk => exact hs
  | opening hk hd =>
    simp only [List.length_cons] at hs ⊢
    omega
  | bar hk => exact hs
  | closing hk =>
    simp only [List.length_cons] at hs ⊢
    omega

theorem run_depth {d : Nat} (h : s.run limit us = .ok s') (hs : s.depth = d + s.frames.length) :
    s'.depth = d + s'.frames.length := by
  induction us generalizing s with
  | nil =>
    cases h
    exact hs
  | cons t us ih =>
    obtain ⟨s₁, h₁, h⟩ := run_cons_ok_iff.1 h
    exact ih h (h₁.depth hs)

end State

theorem parse_of_run_ok
    (h : (State.start p.position p.depth).run p.limit (p.tokens.drop p.position) = .ok s) :
    p.parse = (s.finish, p.seek s.position s.depth) := by
  rw [parse, h]
  rfl

theorem parse_of_run_error {e : Halt}
    (h : (State.start p.position p.depth).run p.limit (p.tokens.drop p.position) = .error e) :
    p.parse = (.error e.fault, p.seek e.position e.depth) := by
  rw [parse, h]
  rfl

theorem finish_ends
    (h : (State.start p.position p.depth).run p.limit (p.tokens.drop p.position) = .ok s)
    (hp : p.position ≤ p.tokens.length) : Ends p (s.finish, p.seek s.position s.depth) := by
  have hposition : s.position = p.tokens.length := by
    rw [State.run_position h, List.length_drop]
    simp only [State.start]
    omega
  have hdepth : s.depth = p.depth + s.frames.length := State.run_depth h rfl
  -- a pattern has begun only if a token was there to be read
  have hmoved : s.parts ≠ [] → p.position < p.tokens.length := by
    intro hparts
    refine Nat.lt_of_le_of_ne hp fun heq => hparts ?_
    rw [heq, List.drop_length] at h
    cases h
    rfl
  obtain ⟨position, depth, frames, parts⟩ := s
  simp only at hposition hdepth hmoved
  subst hposition
  cases parts with
  | nil =>
    have hle : p.depth ≤ depth := by omega
    exact .endOfInput hle
  | cons part parts =>
    have hlt := hmoved (List.cons_ne_nil _ _)
    cases frames with
    | nil =>
      rw [List.length_nil, Nat.add_zero] at hdepth
      subst hdepth
      exact .tree hlt
    | cons f frames =>
      rw [List.length_cons] at hdepth
      have hd : p.depth < depth := by omega
      exact .unterminated hlt hd

theorem halt_ends {e : Halt}
    (h : (State.start p.position p.depth).run p.limit (p.tokens.drop p.position) = .error e) :
    Ends p (.error e.fault, p.seek e.position e.depth) := by
  obtain ⟨before, t, rest, s, hsplit, hrun, hstep⟩ := State.run_eq_error h
  have hposition : s.position = p.position + before.length := State.run_position hrun
  have hdepth : s.depth = p.depth + s.frames.length := State.run_depth hrun rfl
  have ht : p.tokens[s.position]? = some t := by
    rw [hposition, ← List.getElem?_drop, hsplit, List.getElem?_append_right (Nat.le_refl _),
      Nat.sub_self]
    rfl
  have hle : p.position ≤ s.position := by omega
  have hdle : p.depth ≤ s.depth := by omega
  obtain ⟨hk, rfl⟩ | ⟨hk, hl, rfl⟩ := State.step_halt hstep
  · exact .refused hle ht hk hdle
  · exact .tooDeep hle ht hk hdle hl

/-- A call ends in one of five ways. -/
theorem parse_ends (hp : p.position ≤ p.tokens.length) : Ends p p.parse := by
  cases h : (State.start p.position p.depth).run p.limit (p.tokens.drop p.position) with
  | ok s =>
    rw [parse_of_run_ok h]
    exact finish_ends h hp
  | error e =>
    rw [parse_of_run_error h]
    exact halt_ends h

/-! ## Calls that change nothing -/

/-- A token that was refused is refused again, for the depth is still the same. -/
theorem parse_of_refused {i depth : Nat} (ht : p.tokens[i]? = some t)
    (hk : t.kind = .closing ∨ t.kind = .bar) :
    (p.seek i depth).parse =
      (.error ((State.start i depth).refuse t.value).fault, p.seek i depth) := by
  obtain ⟨hlt, rfl⟩ := List.getElem?_eq_some_iff.1 ht
  have hstep : (State.start i depth).step p.limit p.tokens[i] =
      .error ((State.start i depth).refuse p.tokens[i].value) := by
    rcases hk with hk | hk
    · simp only [State.step, hk, State.closeBlock, State.start]
    · simp only [State.step, hk, State.nextOption, State.start]
  refine parse_of_run_error (e := (State.start i depth).refuse p.tokens[i].value) ?_
  show (State.start i depth).run p.limit (p.tokens.drop i) = _
  rw [List.drop_eq_getElem_cons hlt, State.run_cons, hstep]

/-- At the end a pattern is missing, and goes on missing. -/
theorem parse_of_ended (p : Parser) (depth : Nat) :
    (p.seek p.tokens.length depth).parse =
      (.error ⟨.endOfInput, lastIndex? p.tokens⟩, p.seek p.tokens.length depth) := by
  refine parse_of_run_ok (s := State.start p.tokens.length depth) ?_
  show (State.start p.tokens.length depth).run p.limit (p.tokens.drop p.tokens.length) = _
  rw [List.drop_length, State.run_nil]

/-! ## Any number of calls -/

theorem Ends.position_le {r : Except Fault Tree × Parser} (h : Ends p r)
    (hp : p.position ≤ p.tokens.length) :
    p.position ≤ r.2.position ∧ r.2.position ≤ p.tokens.length := by
  cases h with
  | tree => exact ⟨hp, Nat.le_refl _⟩
  | endOfInput => exact ⟨hp, Nat.le_refl _⟩
  | unterminated => exact ⟨hp, Nat.le_refl _⟩
  | refused h ht => exact ⟨h, Nat.le_of_lt (List.getElem?_eq_some_iff.1 ht).1⟩
  | tooDeep h ht => exact ⟨Nat.le_succ_of_le h, (List.getElem?_eq_some_iff.1 ht).1⟩

theorem after_kept (p : Parser) (n : Nat) :
    (p.after n).tokens = p.tokens ∧ (p.after n).file = p.file ∧ (p.after n).limit = p.limit := by
  induction n with
  | zero => exact ⟨rfl, rfl, rfl⟩
  | succ n ih =>
    rw [after_succ, parse_tokens, parse_file, parse_limit]
    exact ih

theorem after_position_le (hp : p.position ≤ p.tokens.length) (n : Nat) :
    (p.after n).position ≤ p.tokens.length := by
  induction n with
  | zero => exact hp
  | succ n ih =>
    have htokens := (p.after_kept n).1
    rw [← htokens] at ih ⊢
    rw [after_succ]
    exact ((parse_ends ih).position_le ih).2

/-- Came to a brace that opens one block too many. -/
def isTooDeep : Except Fault Tree → Bool
  | .error ⟨.tooDeep _, _⟩ => true
  | _ => false

theorem isTooDeep_refuse (s : State) (value : String) :
    isTooDeep (.error (s.refuse value).fault) = false := by
  unfold State.refuse
  split <;> rfl

theorem openings_take_mono (ts : List Token) {a b : Nat} (h : a ≤ b) :
    openings (ts.take a) ≤ openings (ts.take b) :=
  (List.take_sublist_take_left h).countP_le

theorem openings_take_succ {ts : List Token} {i : Nat} (ht : ts[i]? = some t)
    (hk : t.kind = .opening) : openings (ts.take (i + 1)) = openings (ts.take i) + 1 := by
  rw [List.take_add_one, ht, openings_append]
  simp [openings, hk]

/-- The step: a call that comes to a fault of depth has passed one more opening brace. -/
theorem openings_passed (hp : p.position ≤ p.tokens.length) :
    openings (p.tokens.take p.position) + (if isTooDeep p.parse.1 then 1 else 0) ≤
      openings (p.tokens.take p.parse.2.position) := by
  have hends := parse_ends hp
  have hle := openings_take_mono p.tokens (hends.position_le hp).1
  generalize p.parse = r at hends hle ⊢
  cases hends with
  | tree => exact hle
  | endOfInput => exact hle
  | unterminated => exact hle
  | refused =>
    rw [isTooDeep_refuse]
    exact hle
  | tooDeep h ht hk =>
    have hmono := openings_take_mono p.tokens h
    simp only [isTooDeep, seek, openings_take_succ ht hk, if_true]
    omega

theorem countP_tooDeep_le (hp : p.position ≤ p.tokens.length) (calls : Nat) :
    ((List.range calls).countP fun n => isTooDeep (p.after n).parse.1) ≤
      openings (p.tokens.take (p.after calls).position) := by
  induction calls with
  | zero => simp
  | succ n ih =>
    have htokens := (p.after_kept n).1
    have hposition := after_position_le hp n
    rw [← htokens] at hposition
    have hstep := openings_passed hposition
    rw [htokens, ← after_succ] at hstep
    rw [List.range_succ, List.countP_append, List.countP_singleton]
    exact Nat.le_trans (Nat.add_le_add_right ih _) hstep

/-! ## What a call says of the later ones -/

/-- A token is put down as the fault, which cannot stand where it is. -/
def Cause.IsUnexpected (c : Cause) : Prop :=
  ∃ value, c = .stray value ∨ c = .emptyOption value

theorem Ends.again {r : Except Fault Tree × Parser} {f : Fault} (h : Ends p r)
    (hr : r.1 = .error f) (hf : f.cause.IsUnexpected ∨ f.cause = .endOfInput) : r.2.parse = r := by
  cases h with
  | tree => cases hr
  | endOfInput => exact parse_of_ended p _
  | unterminated =>
    cases hr
    obtain ⟨value, hf | hf⟩ | hf := hf <;> cases hf
  | refused h ht hk => exact parse_of_refused ht hk
  | tooDeep =>
    cases hr
    obtain ⟨value, hf | hf⟩ | hf := hf <;> cases hf

/-- A tree, or a block that is open at the end: all tokens are read. -/
theorem Ends.ended {r : Except Fault Tree × Parser} (h : Ends p r)
    (hr : ∀ f, r.1 = .error f → f.cause = .unterminated) :
    p.position < p.tokens.length ∧ ∃ depth, r.2 = p.seek p.tokens.length depth := by
  cases h with
  | tree h => exact ⟨h, _, rfl⟩
  | unterminated h => exact ⟨h, _, rfl⟩
  | endOfInput => cases hr _ rfl
  | refused h ht hk hd =>
    have hcause := hr _ rfl
    rw [State.refuse] at hcause
    split at hcause <;> cases hcause
  | tooDeep => cases hr _ rfl

theorem Ends.depth_of_tree {r : Except Fault Tree × Parser} {tree : Tree} (h : Ends p r)
    (hr : r.1 = .ok tree) : r.2.depth = p.depth := by
  cases h with
  | tree => rfl
  | _ => cases hr

/-- The parser is left behind the brace that is blamed. -/
theorem Ends.behind_brace {r : Except Fault Tree × Parser} {depth : Nat} {i : Option Nat}
    (h : Ends p r) (hr : r.1 = .error ⟨.tooDeep depth, i⟩) :
    p.position < r.2.position ∧ ∃ j t, i = some j ∧ p.tokens[j]? = some t ∧ t.kind = .opening ∧
      r.2.position = j + 1 := by
  cases h with
  | tree => cases hr
  | endOfInput => cases hr
  | unterminated => cases hr
  | refused =>
    rw [State.refuse] at hr
    split at hr <;> cases hr
  | @tooDeep j depth t h ht hk =>
    cases hr
    exact ⟨Nat.lt_succ_of_le h, j, t, rfl, ht, hk, rfl⟩

theorem tell_congr {q : Parser} (ht : q.tokens = p.tokens) (hf : q.file = p.file)
    (r : Except Fault Tree) : q.tell r = p.tell r := by
  cases r with
  | ok t => rfl
  | error f => simp only [tell, diagnostic, event, blamed, ht, hf]

section Fresh

variable {file : Option String} {tokens : List Token} {n m : Nat}

theorem fresh_ends (limit : Nat) (file : Option String) (tokens : List Token) (n : Nat) :
    Ends ((fresh limit file tokens).after n) ((fresh limit file tokens).after n).parse := by
  have hle := after_position_le (p := fresh limit file tokens) (Nat.zero_le _) n
  refine parse_ends ?_
  rwa [((fresh limit file tokens).after_kept n).1]

theorem report_after (limit : Nat) (file : Option String) (tokens : List Token) (n : Nat) :
    ((fresh limit file tokens).after n).report.1 =
      (fresh limit file tokens).tell ((fresh limit file tokens).after n).parse.1 := by
  obtain ⟨htokens, hfile, -⟩ := (fresh limit file tokens).after_kept n
  rw [report_eq_tell, tell_congr htokens hfile]

/-- The report of a pattern that is missing at the end. -/
theorem tell_endOfInput (limit : Nat) (file : Option String) (h : tokens ≠ []) :
    ∃ last d, tokens.getLast? = some last ∧
      d.text = "unexpected end of input, expected text or '\x7b'" ∧
      Placed file tokens d (some (tokens.length - 1)) ∧
      (fresh limit file tokens).tell (.error ⟨.endOfInput, lastIndex? tokens⟩) =
        ⟨.error d, [.rejected d.text (some last)]⟩ := by
  have hlast : tokens.getLast? = some (tokens.getLast h) := List.getLast?_eq_some_getLast h
  have hget : tokens[tokens.length - 1]? = some (tokens.getLast h) := by
    rw [← List.getLast?_eq_getElem?, hlast]
  have hindex : lastIndex? tokens = some (tokens.length - 1) :=
    if_neg fun hn => h (List.length_eq_zero_iff.1 hn)
  have hblamed : (fresh limit file tokens).blamed ⟨.endOfInput, lastIndex? tokens⟩ =
      some (tokens.getLast h) := by
    rw [hindex]
    exact hget
  refine ⟨_, (fresh limit file tokens).diagnostic ⟨.endOfInput, lastIndex? tokens⟩, hlast,
    diagnostic_text _ _, ?_, ?_⟩
  · rw [hindex]
    exact diagnostic_placed (.inr ⟨_, _, rfl, hget⟩)
  · rw [tell, event, hblamed, diagnostic_text]

/-- What a call on a parser says of all later ones, whatever the calls before it. Where a token
could not stand, or a pattern is missing at the end, nothing changes any more: every later call
makes the same report. Behind a tree, and behind an unfinished block, all tokens are read, and every
later call misses a pattern behind the last of them. A tree leaves the depth alone. A fault of
depth is left behind, with the brace that is blamed, so there are no more of them than opening
braces. -/
theorem calls_settle (limit : Nat) (file : Option String) (tokens : List Token) :
    let p : Nat → Parser := fun calls => (fresh limit file tokens).after calls
    (∀ n f, (p n).parse.1 = .error f → f.cause.IsUnexpected ∨ f.cause = .endOfInput →
      ∀ m, n < m → p m = p (n + 1) ∧ (p m).report.1 = (p n).report.1) ∧
    (∀ n, (∃ t, (p n).parse.1 = .ok t) ∨ (∃ i, (p n).parse.1 = .error ⟨.unterminated, i⟩) →
      (p (n + 1)).position = tokens.length ∧
      ∃ last d, tokens.getLast? = some last ∧
        d.text = "unexpected end of input, expected text or '\x7b'" ∧
        Placed file tokens d (some (tokens.length - 1)) ∧
        ∀ m, n < m → p m = p (n + 1) ∧
          (p m).report.1 = ⟨.error d, [.rejected d.text (some last)]⟩) ∧
    (∀ n t, (p n).parse.1 = .ok t → (p (n + 1)).depth = (p n).depth) ∧
    (∀ n depth i, (p n).parse.1 = .error ⟨.tooDeep depth, i⟩ →
      (p n).position < (p (n + 1)).position ∧
      ∃ j t, i = some j ∧ tokens[j]? = some t ∧ t.kind = .opening ∧
        (p (n + 1)).position = j + 1) ∧
    ∀ calls, ((List.range calls).countP fun n => isTooDeep (p n).parse.1) ≤ openings tokens := by
  intro p
  have hnext : ∀ n, p (n + 1) = (p n).parse.2 := (fresh limit file tokens).after_succ
  have htokens : ∀ n, (p n).tokens = tokens :=
    fun n => ((fresh limit file tokens).after_kept n).1
  have hends : ∀ n, Ends (p n) (p n).parse := fresh_ends limit file tokens
  have hreport : ∀ n, (p n).report.1 = (fresh limit file tokens).tell (p n).parse.1 :=
    report_after limit file tokens
  have hsettled : ∀ n m, (p (n + 1)).parse.2 = p (n + 1) → n < m → p m = p (n + 1) :=
    fun n m h hm => after_settled h hm
  refine ⟨?_, ?_, ?_, ?_, ?_⟩
  · intro n f hf hcause m hm
    have hagain : (p (n + 1)).parse = (p n).parse := by
      rw [hnext]
      exact (hends n).again hf hcause
    have heq : p m = p (n + 1) := hsettled n m (by rw [hagain, hnext]) hm
    exact ⟨heq, by rw [heq, hreport, hreport, hagain]⟩
  · intro n hn
    have hcause : ∀ f, (p n).parse.1 = .error f → f.cause = .unterminated := by
      intro f hf
      obtain ⟨t, ht⟩ | ⟨i, hi⟩ := hn
      · rw [hf] at ht
        cases ht
      · rw [hf] at hi
        cases hi
        rfl
    obtain ⟨hlt, depth, hq⟩ := (hends n).ended hcause
    rw [← hnext, htokens] at hq
    rw [htokens] at hlt
    have hparse : (p (n + 1)).parse = (.error ⟨.endOfInput, lastIndex? tokens⟩, p (n + 1)) := by
      have hended := parse_of_ended (p n) depth
      rwa [htokens, ← hq] at hended
    obtain ⟨last, d, hlast, htext, hplaced, htell⟩ :=
      tell_endOfInput limit file (List.ne_nil_of_length_pos (Nat.zero_lt_of_lt hlt))
    refine ⟨by rw [hq]; rfl, last, d, hlast, htext, hplaced, fun m hm => ?_⟩
    have heq : p m = p (n + 1) := hsettled n m (by rw [hparse]) hm
    exact ⟨heq, by rw [heq, hreport, hparse, htell]⟩
  · intro n t ht
    rw [hnext]
    exact (hends n).depth_of_tree ht
  · intro n depth i hi
    rw [hnext, ← htokens n]
    exact (hends n).behind_brace hi
  · intro calls
    have hle := countP_tooDeep_le (p := fresh limit file tokens) (Nat.zero_le _) calls
    exact Nat.le_trans hle (List.take_sublist _ _).countP_le

/-- Two blocks where one may be open. The first call stops at the second brace. The next one knows
of no open block, but of the depth, and refuses the closing brace for an empty option, as do all
later ones. -/
theorem calls_settle_too_deep :
    let token (kind : Token.Kind) (value : String) : Token := ⟨kind, value, .unknown⟩
    let tokens := [token .opening "\x7b", token .opening "\x7b", token .text "a",
      token .closing "\x7d"]
    let p : Nat → Parser := fun calls => (fresh 1 none tokens).after calls
    (p 0).parse.1 = .error ⟨.tooDeep 1, some 1⟩ ∧ (p 1).position = 2 ∧
      (p 1).parse.1 = .error ⟨.emptyOption "\x7d", some 3⟩ ∧
      ∀ m, 1 < m → (p m).position = 3 ∧ (p m).depth = 2 ∧ (p m).report.1.value =
        .error ⟨.structural, "empty option before '\x7d'", some 0, some 0, none⟩ := by
  intro token tokens p
  obtain ⟨hsame, -, -, hdeep, -⟩ := calls_settle 1 none tokens
  have hfirst : (p 0).parse.1 = .error ⟨.tooDeep 1, some 1⟩ := rfl
  have hsecond : (p 1).parse.1 = .error ⟨.emptyOption "\x7d", some 3⟩ := rfl
  obtain ⟨-, j, t, hj, -, -, hposition⟩ := hdeep 0 1 (some 1) hfirst
  cases hj
  refine ⟨hfirst, hposition, hsecond, fun m hm => ?_⟩
  obtain ⟨heq, hreport⟩ := hsame 1 _ hsecond (.inl ⟨_, .inr rfl⟩) m hm
  have hlater : (p m).position = 3 ∧ (p m).depth = 2 := by
    rw [show p m = p 2 from heq]
    exact ⟨rfl, rfl⟩
  refine ⟨hlater.1, hlater.2, ?_⟩
  rw [show (p m).report.1 = (p 1).report.1 from hreport, report_of_error hsecond]
  exact congrArg Except.error rfl

end Fresh

end Parser
end Spintax
