import Spintax.Proofs.Blame

/-!
# Spintax.Proofs.DepthGate

What the limit on open blocks does, and that it does nothing else. The parser with the limit taken
out reads every list of tokens as far as it can be read at all. A parser with a limit goes along
with it up to the first brace that opens one block too many, if it gets that far, and stops there.

* `State.stepFreely`, `runFreely`, `parseFreely`: a parser that opens every block.
* `rise ts`: the balance of the braces, which is the depth of a parser that has read `ts`.
* `firstOver?`: where the balance first exceeds the limit.
* `gate`: what the limit makes of the outcome without one.
* `step_eq_stepFreely`, `run_eq_runFreely`: the two go in lockstep while the balance is within the
  limit.
* `limit_only_gates`: parsers and their reports.
-/

namespace Spintax
namespace Parser

variable {limit : Nat} {file : Option String} {tokens ts us : List Token} {t : Token}

namespace State

/-- Starts a block, however deep. -/
def openFreely (s : State) (t : Token) : State :=
  ⟨s.position + 1, s.depth + 1, ⟨s.position, t, s.parts, []⟩ :: s.frames, []⟩

def stepFreely (s : State) (t : Token) : Except Halt State :=
  match t.kind with
  | .text => .ok (s.addText t)
  | .opening => .ok (s.openFreely t)
  | .bar => s.nextOption t
  | .closing => s.closeBlock t

def runFreely (s : State) (ts : List Token) : Except Halt State :=
  ts.foldlM stepFreely s

theorem runFreely_cons (s : State) (t : Token) (ts : List Token) :
    s.runFreely (t :: ts) =
      match s.stepFreely t with
      | .ok s' => s'.runFreely ts
      | .error h => .error h := by
  simp only [runFreely, List.foldlM_cons]
  cases s.stepFreely t <;> rfl

theorem runFreely_append (s : State) (ts us : List Token) :
    s.runFreely (ts ++ us) =
      match s.runFreely ts with
      | .ok s' => s'.runFreely us
      | .error h => .error h := by
  simp only [runFreely, List.foldlM_append]
  cases ts.foldlM stepFreely s <;> rfl

end State

/-- The tree of the tokens, or why they have none, without any limit on open blocks. -/
def parseFreely (tokens : List Token) : Except Fault Tree :=
  match (State.start 0 0).runFreely tokens with
  | .ok s => s.finish
  | .error h => .error h.fault

/-! ## The balance of the braces -/

/-- How many more braces are opened than closed. -/
def rise (ts : List Token) : Int :=
  openings ts - closings ts

@[simp] theorem rise_nil : rise [] = 0 := rfl

theorem rise_append (ts us : List Token) : rise (ts ++ us) = rise ts + rise us := by
  simp only [rise, openings_append, closings_append]
  omega

theorem rise_singleton (t : Token) :
    rise [t] = (if t.kind = .opening then 1 else 0) - if t.kind = .closing then 1 else 0 := by
  rw [rise, openings_cons, closings_cons]
  split <;> split <;> simp [openings, closings]

theorem rise_of_opening (h : t.kind = .opening) : rise [t] = 1 := by
  simp [rise_singleton, h]

theorem rise_of_closing (h : t.kind = .closing) : rise [t] = -1 := by
  simp [rise_singleton, h]

/-- The balance only goes up at an opening brace, and by one. -/
theorem opening_of_rise_pos (h : 0 < rise [t]) : t.kind = .opening := by
  rw [rise_singleton] at h
  split at h
  · assumption
  · split at h <;> omega

theorem rise_of_flat (h : Flat ts) : rise ts = 0 := by
  rw [rise, h.closings_eq]
  omega

theorem rise_of_nest {indices : List Nat} (h : Nest ts indices) : rise ts = indices.length := by
  induction h with
  | flat hf => exact rise_of_flat hf
  | @opened ts us t indices _ hk hf ih =>
    rw [List.append_cons, rise_append, rise_append, ih, rise_of_opening hk, rise_of_flat hf]
    simp

/-- The index of the first token with which the balance exceeds the limit. -/
def firstOver? (limit : Nat) (tokens : List Token) : Option Nat :=
  (List.range tokens.length).find? fun p => limit < rise (tokens.take (p + 1))

theorem firstOver?_eq_none_iff :
    firstOver? limit tokens = none ↔ ∀ n, rise (tokens.take n) ≤ limit := by
  simp only [firstOver?, List.find?_range_eq_none, Bool.not_eq_true', decide_eq_false_iff_not,
    Int.not_lt]
  constructor
  · intro h n
    rw [List.take_eq_take_min]
    cases hn : min n tokens.length with
    | zero => simp
    | succ p => exact h p (by omega)
  · intro h p _
    exact h (p + 1)

theorem firstOver?_eq_some_iff {p : Nat} :
    firstOver? limit tokens = some p ↔
      p < tokens.length ∧ limit < rise (tokens.take (p + 1)) ∧
        ∀ n ≤ p, rise (tokens.take n) ≤ limit := by
  simp only [firstOver?, List.find?_range_eq_some, decide_eq_true_eq, List.mem_range,
    Bool.not_eq_true', decide_eq_false_iff_not, Int.not_lt]
  constructor
  · rintro ⟨hover, hp, hbefore⟩
    refine ⟨hp, hover, fun n hn => ?_⟩
    cases n with
    | zero => simp
    | succ q => exact hbefore q hn
  · rintro ⟨hp, hover, hbefore⟩
    exact ⟨hover, hp, fun q hq => hbefore (q + 1) hq⟩

/-- The first token over the limit is an opening brace, and the balance before it is the limit. -/
theorem exists_opening_of_firstOver {p : Nat} (h : firstOver? limit tokens = some p) :
    ∃ before t after, tokens = before ++ t :: after ∧ before.length = p ∧ t.kind = .opening ∧
      rise before = limit ∧ ∀ n, rise (before.take n) ≤ limit := by
  obtain ⟨hp, hover, hbefore⟩ := firstOver?_eq_some_iff.1 h
  have hlen : (tokens.take p).length = p := List.length_take_of_le (Nat.le_of_lt hp)
  have hle : rise (tokens.take p) ≤ limit := hbefore p (Nat.le_refl p)
  rw [List.take_succ_eq_append_getElem hp, rise_append] at hover
  have hk : tokens[p].kind = .opening := opening_of_rise_pos (by omega)
  refine ⟨tokens.take p, tokens[p], tokens.drop (p + 1), by simp, hlen, hk, ?_, fun n => ?_⟩
  · rw [rise_of_opening hk] at hover
    omega
  · rw [List.take_take]
    exact hbefore _ (Nat.min_le_right n p)

/-! ## In lockstep up to the gate -/

namespace State

variable {s s' : State} {e : Halt}

/-- The limit is looked at by opening braces only. -/
theorem step_eq_stepFreely (h : t.kind = .opening → s.depth + 1 ≤ limit) :
    s.step limit t = s.stepFreely t := by
  unfold step stepFreely
  cases hk : t.kind with
  | text => rfl
  | opening => exact if_neg (Nat.not_lt.2 (h hk))
  | bar => rfl
  | closing => rfl

theorem step_of_over (hk : t.kind = .opening) (h : limit < s.depth + 1) :
    s.step limit t =
      .error ⟨⟨.tooDeep limit, some s.position⟩, s.position + 1, s.depth + 1⟩ := by
  simp only [step, hk, openBlock, if_pos h]

theorem HasRead.depth_eq_rise (h : s.HasRead ts) : (s.depth : Int) = rise ts := by
  rw [rise_of_nest h.nest, h.depth_eq, List.length_map]

theorem stepFreely_hasRead (h : s.stepFreely t = .ok s') (hs : s.HasRead ts) :
    s'.HasRead (ts ++ [t]) := by
  have hstep : s.step (s.depth + 1) t = .ok s' := by
    rw [step_eq_stepFreely fun _ => Nat.le_refl _, h]
  exact (step_eq_ok_iff.1 hstep).hasRead hs

theorem stepFreely_eq_error (h : s.stepFreely t = .error e) :
    e.fault = (s.refuse t.value).fault := by
  have hstep : s.step (s.depth + 1) t = .error e := by
    rw [step_eq_stepFreely fun _ => Nat.le_refl _, h]
  obtain ⟨-, he⟩ | ⟨hk, -⟩ := step_eq_error hstep
  · exact he
  · simp only [stepFreely, hk] at h
    cases h

theorem runFreely_hasRead (h : s.runFreely us = .ok s') (hs : s.HasRead ts) :
    s'.HasRead (ts ++ us) := by
  induction us generalizing s ts with
  | nil =>
    cases h
    rwa [List.append_nil]
  | cons t us ih =>
    rw [runFreely_cons] at h
    cases hstep : s.stepFreely t with
    | error e =>
      rw [hstep] at h
      cases h
    | ok s₁ =>
      rw [hstep] at h
      have := ih h (stepFreely_hasRead hstep hs)
      rwa [List.append_assoc] at this

/-- The one fault without a limit: a token that cannot stand where it is, behind all that was
read. -/
theorem runFreely_eq_error (h : s.runFreely us = .error e) (hs : s.HasRead ts) :
    ∃ i value, ts.length ≤ i ∧ i < ts.length + us.length ∧
      (e.fault = ⟨.stray value, some i⟩ ∨ e.fault = ⟨.emptyOption value, some i⟩) := by
  induction us generalizing s ts with
  | nil => cases h
  | cons t us ih =>
    rw [runFreely_cons] at h
    cases hstep : s.stepFreely t with
    | error e' =>
      rw [hstep] at h
      cases h
      refine ⟨s.position, t.value, Nat.le_of_eq hs.position_eq.symm, ?_, ?_⟩
      · rw [hs.position_eq]
        simp
      · rw [stepFreely_eq_error hstep, refuse]
        split
        · exact .inl rfl
        · exact .inr rfl
    | ok s₁ =>
      rw [hstep] at h
      obtain ⟨i, value, hle, hlt, hfault⟩ := ih h (stepFreely_hasRead hstep hs)
      simp only [List.length_append, List.length_cons, List.length_nil] at hle hlt
      refine ⟨i, value, by omega, ?_, hfault⟩
      rw [List.length_cons]
      omega

/-- The run lemma: the limit is not felt while the balance is within it, faults included. -/
theorem run_eq_runFreely (hs : s.HasRead ts)
    (h : ∀ n, rise ts + rise (us.take n) ≤ limit) : s.run limit us = s.runFreely us := by
  induction us generalizing s ts with
  | nil => rfl
  | cons t us ih =>
    have hstep : s.step limit t = s.stepFreely t := by
      refine step_eq_stepFreely fun hk => ?_
      have hone := h 1
      have hdepth := hs.depth_eq_rise
      rw [List.take_succ_cons, List.take_zero, rise_of_opening hk] at hone
      omega
    rw [run_cons, runFreely_cons, hstep]
    cases hnext : s.stepFreely t with
    | error e => rfl
    | ok s₁ =>
      refine ih (stepFreely_hasRead hnext hs) fun n => ?_
      have hn := h (n + 1)
      rwa [List.take_succ_cons, ← List.singleton_append, rise_append, ← Int.add_assoc,
        ← rise_append] at hn

end State

/-! ## The gate -/

/-- A bar or a closing brace that cannot stand where it is, before the given index. -/
def unexpectedBelow (p : Nat) : Except Fault Tree → Bool
  | .error ⟨.stray _, some i⟩ | .error ⟨.emptyOption _, some i⟩ => i < p
  | _ => false

/-- What a limit makes of the outcome without one: the first brace over the limit is blamed, unless
the parser stops before it. -/
def gate (limit : Nat) (tokens : List Token) (free : Except Fault Tree) : Except Fault Tree :=
  match firstOver? limit tokens with
  | none => free
  | some p => if unexpectedBelow p free then free else .error ⟨.tooDeep limit, some p⟩

section Gate

variable {limit' p p' : Nat} {free : Except Fault Tree}

theorem unexpectedBelow_of_fault {f : Fault} {i : Nat} {value : String}
    (h : f = ⟨.stray value, some i⟩ ∨ f = ⟨.emptyOption value, some i⟩) :
    unexpectedBelow p (.error f) = decide (i < p) := by
  rcases h with rfl | rfl <;> rfl

theorem unexpectedBelow_finish (s : State) : unexpectedBelow p s.finish = false := by
  unfold State.finish
  split <;> rfl

theorem unexpectedBelow_mono (hp : p ≤ p') (h : unexpectedBelow p free = true) :
    unexpectedBelow p' free = true := by
  unfold unexpectedBelow at h ⊢
  split at h
  · simp only [decide_eq_true_eq] at h ⊢
    omega
  · simp only [decide_eq_true_eq] at h ⊢
    omega
  · cases h

theorem firstOver?_of_le (h : limit ≤ limit') (hp : firstOver? limit' tokens = some p') :
    ∃ p ≤ p', firstOver? limit tokens = some p := by
  obtain ⟨-, hover, -⟩ := firstOver?_eq_some_iff.1 hp
  cases hfirst : firstOver? limit tokens with
  | none =>
    have hle := firstOver?_eq_none_iff.1 hfirst (p' + 1)
    omega
  | some p =>
    obtain ⟨-, -, hbefore⟩ := firstOver?_eq_some_iff.1 hfirst
    refine ⟨p, Nat.le_of_not_lt fun hlt => ?_, rfl⟩
    have hle := hbefore (p' + 1) hlt
    omega

theorem gate_of_free (h : ∀ i, gate limit tokens free ≠ .error ⟨.tooDeep limit, some i⟩) :
    (∀ p, firstOver? limit tokens = some p → unexpectedBelow p free = true) ∧
      gate limit tokens free = free := by
  unfold gate at h ⊢
  cases hfirst : firstOver? limit tokens with
  | none => simp
  | some p =>
    simp only [hfirst] at h ⊢
    by_cases hbelow : unexpectedBelow p free = true
    · rw [if_pos hbelow]
      refine ⟨fun q hq => ?_, rfl⟩
      cases hq
      exact hbelow
    · rw [if_neg hbelow] at h
      exact absurd rfl (h p)

/-- A higher limit leaves alone what a lower one leaves alone. -/
theorem gate_raised (hle : limit ≤ limit')
    (h : ∀ i, gate limit tokens free ≠ .error ⟨.tooDeep limit, some i⟩) :
    gate limit' tokens free = gate limit tokens free := by
  obtain ⟨hbelow, hfree⟩ := gate_of_free h
  rw [hfree, gate]
  cases hfirst' : firstOver? limit' tokens with
  | none => rfl
  | some p' =>
    obtain ⟨p, hp, hfirst⟩ := firstOver?_of_le hle hfirst'
    exact if_pos (unexpectedBelow_mono hp (hbelow p hfirst))

end Gate

/-! ## Parsers -/

section Parsers

variable {before after : List Token} {s : State}

theorem parseFreely_append_of_ok (h : (State.start 0 0).runFreely before = .ok s) :
    parseFreely (before ++ after) =
      match s.runFreely after with
      | .ok s' => s'.finish
      | .error e => .error e.fault := by
  rw [parseFreely, State.runFreely_append, h]

theorem parseFreely_append_of_error {e : Halt}
    (h : (State.start 0 0).runFreely before = .error e) :
    parseFreely (before ++ after) = .error e.fault := by
  rw [parseFreely, State.runFreely_append, h]

theorem parseFreely_ne_tooDeep (n : Nat) (blamed : Option Nat) :
    parseFreely tokens ≠ .error ⟨.tooDeep n, blamed⟩ := by
  unfold parseFreely
  cases hrun : (State.start 0 0).runFreely tokens with
  | ok s =>
    simp only [State.finish]
    split <;> simp
  | error e =>
    obtain ⟨i, value, -, -, hfault⟩ := State.runFreely_eq_error hrun State.start_hasRead
    rcases hfault with hfault | hfault <;> simp [hfault]

/-- What was read without a fault is not blamed later. -/
theorem unexpectedBelow_parseFreely (h : (State.start 0 0).runFreely before = .ok s) :
    unexpectedBelow before.length (parseFreely (before ++ after)) = false := by
  have hs : s.HasRead before := State.runFreely_hasRead h State.start_hasRead
  rw [parseFreely_append_of_ok h]
  cases hrest : s.runFreely after with
  | ok s' => exact unexpectedBelow_finish s'
  | error e =>
    obtain ⟨i, value, hi, -, hfault⟩ := State.runFreely_eq_error hrest hs
    rw [show unexpectedBelow _ _ = decide (i < before.length) from unexpectedBelow_of_fault hfault]
    exact decide_eq_false (Nat.not_lt.2 hi)

theorem parse_of_within (h : ∀ n, rise (tokens.take n) ≤ limit) :
    (fresh limit file tokens).parse.1 = parseFreely tokens := by
  have hrun : (State.start 0 0).run limit tokens = (State.start 0 0).runFreely tokens :=
    State.run_eq_runFreely State.start_hasRead fun n => by simpa using h n
  rw [parse_fresh, hrun]
  rfl

/-- The brace over the limit is reached if all before it can be read. -/
theorem parse_of_over (hk : t.kind = .opening) (hrise : rise before = limit)
    (hbefore : ∀ n, rise (before.take n) ≤ limit) :
    (fresh limit file (before ++ t :: after)).parse.1 =
      if unexpectedBelow before.length (parseFreely (before ++ t :: after)) then
        parseFreely (before ++ t :: after)
      else .error ⟨.tooDeep limit, some before.length⟩ := by
  have hrun : (State.start 0 0).run limit before = (State.start 0 0).runFreely before :=
    State.run_eq_runFreely State.start_hasRead fun n => by simpa using hbefore n
  rw [parse_fresh, State.run_append, hrun]
  cases hfree : (State.start 0 0).runFreely before with
  | error e =>
    obtain ⟨i, value, -, hi, hfault⟩ := State.runFreely_eq_error hfree State.start_hasRead
    have hbelow : i < before.length := by simpa using hi
    rw [parseFreely_append_of_error hfree, unexpectedBelow_of_fault hfault,
      if_pos (decide_eq_true hbelow)]
  | ok s =>
    have hs : s.HasRead before := State.runFreely_hasRead hfree State.start_hasRead
    have hover : limit < s.depth + 1 := by
      have := hs.depth_eq_rise
      omega
    have hstop : s.run limit (t :: after) =
        .error ⟨⟨.tooDeep limit, some s.position⟩, s.position + 1, s.depth + 1⟩ := by
      rw [State.run_cons, State.step_of_over hk hover]
    rw [unexpectedBelow_parseFreely hfree, ← hs.position_eq]
    simp only [hstop, Bool.false_eq_true, if_false]

theorem parse_eq_gate (limit : Nat) (file : Option String) (tokens : List Token) :
    (fresh limit file tokens).parse.1 = gate limit tokens (parseFreely tokens) := by
  unfold gate
  cases hfirst : firstOver? limit tokens with
  | none => exact parse_of_within (firstOver?_eq_none_iff.1 hfirst)
  | some p =>
    obtain ⟨before, t, after, rfl, rfl, hk, hrise, hbefore⟩ := exists_opening_of_firstOver hfirst
    exact parse_of_over hk hrise hbefore

theorem firstOver?_of_gate {i : Nat}
    (h : gate limit tokens (parseFreely tokens) = .error ⟨.tooDeep limit, some i⟩) :
    firstOver? limit tokens = some i := by
  unfold gate at h
  cases hfirst : firstOver? limit tokens with
  | none =>
    rw [hfirst] at h
    exact absurd h (parseFreely_ne_tooDeep _ _)
  | some p =>
    simp only [hfirst] at h
    split at h
    · exact absurd h (parseFreely_ne_tooDeep _ _)
    · cases h
      rfl

/-- A limit that is not below the number of opening braces is no limit. -/
theorem parse_of_openings_le (h : openings tokens ≤ limit) :
    (fresh limit file tokens).parse.1 = parseFreely tokens := by
  refine parse_of_within fun n => ?_
  have hle : openings (tokens.take n) ≤ openings tokens := (List.take_sublist n tokens).countP_le
  rw [rise]
  omega

/-- The outcome of a parser as it is reported: a fault with its record. -/
def tell (p : Parser) : Except Fault Tree → Recorded (Except Diagnostic Tree)
  | .ok tree => ⟨.ok tree, []⟩
  | .error f => ⟨.error (p.diagnostic f), [p.event f]⟩

theorem report_eq_tell (p : Parser) : p.report.1 = p.tell p.parse.1 := by
  unfold report
  split
  · rename_i h
    rw [h]
    rfl
  · rename_i h
    rw [h]
    rfl

/-- A report says nothing of the limit that its fault does not say. -/
theorem tell_fresh (limit limit' : Nat) (file : Option String) (tokens : List Token)
    (r : Except Fault Tree) :
    (fresh limit file tokens).tell r = (fresh limit' file tokens).tell r := by
  cases r <;> rfl

/-- The limit only gates, and it gates at the first brace that opens one block too many. What a new
parser comes to is what it would come to without a limit, gated; its report is the report of that.
A gated outcome names the limit and stands where that brace stands. Every other outcome is the same
under any higher limit. -/
theorem limit_only_gates (limit : Nat) (file : Option String) (tokens : List Token) :
    let p := fresh limit file tokens
    let outcome := gate limit tokens (parseFreely tokens)
    p.parse.1 = outcome ∧ p.report.1 = p.tell outcome ∧
    (∀ i, outcome = .error ⟨.tooDeep limit, some i⟩ → firstOver? limit tokens = some i ∧
      ∃ t d, tokens[i]? = some t ∧ t.kind = .opening ∧
        p.report.1 = ⟨.error d, [.rejected d.text (some t)]⟩ ∧
        d.text = "blocks nested deeper than " ++ toString limit ++ " levels" ∧
        Placed file tokens d (some i)) ∧
    ((∀ i, outcome ≠ .error ⟨.tooDeep limit, some i⟩) → ∀ limit', limit ≤ limit' →
      (fresh limit' file tokens).parse.1 = p.parse.1 ∧
        (fresh limit' file tokens).report.1 = p.report.1) := by
  intro p outcome
  have hparse : p.parse.1 = outcome := parse_eq_gate limit file tokens
  have hreport : p.report.1 = p.tell outcome := by rw [report_eq_tell, hparse]
  refine ⟨hparse, hreport, fun i hi => ?_, fun hother limit' hle => ?_⟩
  · have hfirst : firstOver? limit tokens = some i := firstOver?_of_gate hi
    obtain ⟨before, t, after, hsplit, rfl, hk, -⟩ := exists_opening_of_firstOver hfirst
    have ht : tokens[before.length]? = some t := by simp [hsplit]
    refine ⟨hfirst, t, p.diagnostic ⟨.tooDeep limit, some before.length⟩, ht, hk, ?_,
      diagnostic_text _ _, diagnostic_placed (.inr ⟨_, t, rfl, ht⟩)⟩
    have hblamed : p.blamed ⟨.tooDeep limit, some before.length⟩ = some t := ht
    rw [hreport, hi, tell, event, hblamed, diagnostic_text]
  · have hraised : (fresh limit' file tokens).parse.1 = outcome := by
      rw [parse_eq_gate]
      exact gate_raised hle hother
    refine ⟨hraised.trans hparse.symm, ?_⟩
    rw [report_eq_tell, hraised, hreport]
    exact tell_fresh limit' limit file tokens outcome

/-- A block in a block. Its brace is one too many where one block may be open, and its tree is the
same wherever more may be. -/
theorem limit_only_gates_block_in_block :
    let token (kind : Token.Kind) (value : String) : Token := ⟨kind, value, .unknown⟩
    let tokens := [token .opening "\x7b", token .text "a", token .opening "\x7b", token .text "b",
      token .closing "\x7d", token .closing "\x7d"]
    (fresh 1 none tokens).parse.1 = .error ⟨.tooDeep 1, some 2⟩ ∧
      (fresh 1 none tokens).report.1.value =
        .error ⟨.structural, "blocks nested deeper than 1 levels", some 0, some 0, none⟩ ∧
      ∃ tree, parseFreely tokens = .ok tree ∧
        ∀ limit, 2 ≤ limit → (fresh limit none tokens).parse.1 = .ok tree := by
  intro token tokens
  obtain ⟨hgated, hreport, -, -⟩ := limit_only_gates 1 none tokens
  obtain ⟨hwithin, -, -, hraised⟩ := limit_only_gates 2 none tokens
  refine ⟨hgated, ?_, _, rfl, fun limit hle => ?_⟩
  · rw [hreport]
    rfl
  · rw [(hraised (fun i h => by cases h) limit hle).1, hwithin]
    rfl

end Parsers

end Parser
end Spintax
