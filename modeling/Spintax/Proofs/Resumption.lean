import Spintax.TokenStream

/-!
# Spintax.Proofs.Resumption

A stream may be left at any token and another one started on the same scanner. What all of them
deliver, one behind the other, is what a single stream delivers.

* `Move`, `play`: one token, all that is left, or a new stream; and any number of these in turn.
* `readings`, `endings`: what is delivered: tokens, each with the mode and the depth behind it, and
  the ways in which streams end.
* `trace_eq_next`, `rest_eq_trace`: a stream is told token by token, or as a whole.
* `Kept s after ds`: what the new stream on `s` delivers is `ds` and what the one on `after` does.
* `Move.kept`, `play_kept`: this for one move and for a schedule.
* `Move.ends`, `play_ends`: a stream delivers nothing only behind its end.
* `play_resumes`: any schedule on a text, against one stream that is never left.
-/

namespace Spintax

namespace Scanner

theorem step_file (s : Scanner) (c : Char) (rest : List Char) :
    (s.step c rest).2.file = s.file := by
  unfold step
  repeat' split
  all_goals rfl

theorem next_file (s : Scanner) :
    match s.next with
    | .token _ s' | .ended _ s' => s'.file = s.file := by
  fun_induction next s with
  | case1 s h => rfl
  | case2 s c rest h t s' hs =>
    have hf := s.step_file c rest
    rw [hs] at hf
    exact hf
  | case3 s c rest h s' hs ih =>
    have hf := s.step_file c rest
    rw [hs] at hf
    cases hn : s'.next with
    | token t s₁ =>
      rw [hn] at ih
      exact ih.trans hf
    | ended e s₁ =>
      rw [hn] at ih
      exact ih.trans hf

/-- A text that has ended ends in the same way again. -/
theorem next_of_ended {s s' : Scanner} {e : Ending} (h : s.next = .ended e s') :
    s'.next = .ended e s' := by
  fun_induction next s with
  | case1 s hr =>
    cases h
    exact next_of_nil hr
  | case2 s c rest hr t s₁ hs => cases h
  | case3 s c rest hr s₁ hs ih => exact ih h

end Scanner

namespace TokenStream

/-- The tokens among some deliveries, with the mode and the depth of the scanner behind each. -/
def readings (ds : List (Delivery × TokenStream)) : List (Token × Mode × Nat) :=
  ds.filterMap fun
    | (.token t, s) => some (t, s.scanner.mode, s.scanner.depth)
    | _ => none

/-- How the streams that came to the end said that the text ends. -/
def endings (ds : List (Delivery × TokenStream)) : List Ending :=
  ds.filterMap fun
    | (.ended e, _) => some e
    | _ => none

theorem readings_append (ds ds' : List (Delivery × TokenStream)) :
    readings (ds ++ ds') = readings ds ++ readings ds' :=
  List.filterMap_append

theorem endings_append (ds ds' : List (Delivery × TokenStream)) :
    endings (ds ++ ds') = endings ds ++ endings ds' :=
  List.filterMap_append

section Delivery

variable {ds : List (Delivery × TokenStream)} {s : TokenStream} {delivery : Delivery}
  {file : Option String}

theorem mem_readings {t : Token} (h : (.token t, s) ∈ ds) : t ∈ (readings ds).map (·.1) :=
  List.mem_map.2 ⟨_, List.mem_filterMap.2 ⟨_, h, rfl⟩, rfl⟩

theorem mem_endings {e : Ending} (h : (.ended e, s) ∈ ds) : e ∈ endings ds :=
  List.mem_filterMap.2 ⟨_, h, rfl⟩

theorem Delivery.eq_token_of_found {t : Token} (h : delivery.found file = .ok (some t)) :
    delivery = .token t := by
  cases delivery with
  | token u => simpa [found] using h
  | nothing => cases h
  | ended e =>
    simp only [found] at h
    split at h <;> cases h

theorem Delivery.ended_of_found {d : Diagnostic} (h : delivery.found file = .error d) :
    ∃ e, delivery = .ended e ∧ e.diagnostic? file = some d := by
  cases delivery with
  | token u => cases h
  | nothing => cases h
  | ended e =>
    simp only [found] at h
    split at h
    · rename_i d' hd
      cases h
      exact ⟨e, rfl, hd⟩
    · cases h

theorem Delivery.ended_of_mem_events {event : Event} (h : event ∈ delivery.events) :
    ∃ e, delivery = .ended e ∧ event ∈ e.events := by
  cases delivery with
  | token u => cases h
  | nothing => cases h
  | ended e => exact ⟨e, rfl, h⟩

end Delivery

/-! ## One stream -/

section Trace

variable {s : Scanner}

theorem trace_of_token {t : Token} {after : Scanner} (h : s.next = .token t after) :
    trace { scanner := s } =
      (.token t, { scanner := after }) :: trace { scanner := after } := by
  rw [trace, if_neg Bool.false_ne_true]
  split <;> simp_all

theorem trace_of_ended {e : Ending} {after : Scanner} (h : s.next = .ended e after) :
    trace { scanner := s } = [(.ended e, { scanner := after, finished := true })] := by
  rw [trace, if_neg Bool.false_ne_true]
  split <;> simp_all

theorem trace_of_finished {s : TokenStream} (h : s.finished) : s.trace = [] := by
  rw [trace, if_pos h]

theorem next_of_token {t : Token} {after : Scanner} (h : s.next = .token t after) :
    next { scanner := s } = (.token t, { scanner := after }) := by
  simp [next, h]

theorem next_of_ended {e : Ending} {after : Scanner} (h : s.next = .ended e after) :
    next { scanner := s } = (.ended e, { scanner := after, finished := true }) := by
  simp [next, h]

/-- A stream that has not come to the end gives a token or comes to it. -/
theorem next_ne_nothing {s : TokenStream} (h : s.finished = false) : s.next.1 ≠ .nothing := by
  obtain ⟨scanner, finished⟩ := s
  obtain rfl : finished = false := h
  cases hn : scanner.next with
  | token t after =>
    rw [next_of_token hn]
    exact nofun
  | ended e after =>
    rw [next_of_ended hn]
    exact nofun

/-- What a stream gives is what it gives next, and then what the stream behind that gives. -/
theorem trace_eq_next (s : TokenStream) :
    s.trace = if s.finished then [] else s.next :: s.next.2.trace := by
  obtain ⟨scanner, finished⟩ := s
  cases finished with
  | true => exact trace_of_finished rfl
  | false =>
    rw [if_neg Bool.false_ne_true]
    cases hn : scanner.next with
    | token t after => rw [next_of_token hn, trace_of_token hn]
    | ended e after => rw [next_of_ended hn, trace_of_ended hn, trace_of_finished rfl]

/-- All that an unfinished stream gives: the tokens of the scan and then its ending. -/
theorem trace_scan (s : Scanner) :
    (readings (trace { scanner := s })).map (·.1) = s.scan.tokens ∧
      endings (trace { scanner := s }) = [s.scan.ending] ∧
      s.scan.last.next = .ended s.scan.ending s.scan.last := by
  induction h : s.rest.length using Nat.strongRecOn generalizing s with
  | ind n ih =>
    have hscan := s.scan_eq
    cases hn : s.next with
    | token t after =>
      have hlt := Scanner.next_rest_lt hn
      rw [h] at hlt
      obtain ⟨htokens, hending, hlast⟩ := ih _ hlt after rfl
      rw [hn] at hscan
      rw [trace_of_token hn, hscan]
      exact ⟨congrArg (t :: ·) htokens, hending, hlast⟩
    | ended e after =>
      rw [hn] at hscan
      rw [trace_of_ended hn, hscan]
      exact ⟨rfl, rfl, Scanner.next_of_ended hn⟩

/-- One delivery for each token of the scan, and the ending, which leaves the scanner as the scan
does. -/
theorem trace_deliveries (s : Scanner) :
    (trace { scanner := s }).map (·.1) = s.scan.tokens.map .token ++ [.ended s.scan.ending] ∧
      (trace { scanner := s }).getLast? =
        some (.ended s.scan.ending, { scanner := s.scan.last, finished := true }) := by
  induction h : s.rest.length using Nat.strongRecOn generalizing s with
  | ind n ih =>
    have hscan := s.scan_eq
    cases hn : s.next with
    | token t after =>
      have hlt := Scanner.next_rest_lt hn
      rw [h] at hlt
      obtain ⟨hmap, hlast⟩ := ih _ hlt after rfl
      rw [hn] at hscan
      rw [trace_of_token hn, hscan]
      exact ⟨congrArg (Delivery.token t :: ·) hmap, by rw [List.getLast?_cons, hlast]; rfl⟩
    | ended e after =>
      rw [hn] at hscan
      rw [trace_of_ended hn, hscan]
      exact ⟨rfl, rfl⟩

/-- Taking all that is left is taking one token after the other: the tokens, the way the text ends
and the stream behind the last delivery are the same. -/
theorem rest_eq_trace (s : TokenStream) :
    s.rest.1 = (readings s.trace).map (·.1) ∧ s.rest.2.1 = (endings s.trace).head? ∧
      s.rest.2.2 = s.trace.getLast?.elim s (·.2) := by
  obtain ⟨scanner, finished⟩ := s
  cases finished with
  | true =>
    rw [trace_of_finished rfl, rest_of_finished rfl]
    exact ⟨rfl, rfl, rfl⟩
  | false =>
    obtain ⟨htokens, hending, -⟩ := trace_scan scanner
    rw [htokens, hending, (trace_deliveries scanner).2]
    exact ⟨rfl, rfl, rfl⟩

/-- Where no token is left, the text is at its end. -/
theorem next_of_readings_nil (h : readings (trace { scanner := s }) = []) :
    ∃ after, s.next = .ended s.scan.ending after := by
  have hscan := s.scan_eq
  cases hn : s.next with
  | token t after =>
    rw [trace_of_token hn] at h
    cases h
  | ended e after =>
    rw [hn] at hscan
    rw [hscan]
    exact ⟨after, rfl⟩

end Trace

/-! ## Schedules -/

/-- What can be done with a stream: take one token, take all that is left, or leave it for a new one
on the same scanner. -/
inductive Move where
  | advance
  | drain
  | restart
deriving DecidableEq

/-- What a move delivers, in order, each with the stream behind it. -/
def Move.deliveries (s : TokenStream) : Move → List (Delivery × TokenStream)
  | .advance => [s.next]
  | .drain => s.trace
  | .restart => []

def Move.after (s : TokenStream) : Move → TokenStream
  | .advance => s.next.2
  | .drain => s.rest.2.2
  | .restart => s.restart

/-- Moves made one after the other. -/
def play : List Move → TokenStream → List (Delivery × TokenStream) × TokenStream
  | [], s => ([], s)
  | m :: ms, s =>
    let (ds, after) := play ms (m.after s)
    (m.deliveries s ++ ds, after)

/-- Nothing is lost or repeated between two streams: a new one on the scanner of `s` would deliver
`ds` and then what a new one on the scanner of `after` would. Where an ending is among `ds`, that is
the only thing left to deliver. -/
structure Kept (s after : TokenStream) (ds : List (Delivery × TokenStream)) : Prop where
  readings_eq : readings s.restart.trace = readings ds ++ readings after.restart.trace
  endings_eq : endings s.restart.trace = endings after.restart.trace
  ended : ∀ e ∈ endings ds, endings s.restart.trace = [e] ∧ readings after.restart.trace = []
  file_eq : after.scanner.file = s.scanner.file

theorem Kept.refl (s : TokenStream) : Kept s s [] :=
  ⟨rfl, rfl, fun _ he => absurd he List.not_mem_nil, rfl⟩

theorem Kept.trans {s s₁ s₂ : TokenStream} {ds ds' : List (Delivery × TokenStream)}
    (h : Kept s s₁ ds) (h' : Kept s₁ s₂ ds') : Kept s s₂ (ds ++ ds') := by
  refine ⟨?_, h.endings_eq.trans h'.endings_eq, ?_, h'.file_eq.trans h.file_eq⟩
  · rw [h.readings_eq, h'.readings_eq, readings_append, List.append_assoc]
  · intro e he
    rw [endings_append] at he
    rcases List.mem_append.1 he with he | he
    · obtain ⟨heq, hnil⟩ := h.ended e he
      rw [h'.readings_eq, List.append_eq_nil_iff] at hnil
      exact ⟨heq, hnil.2⟩
    · obtain ⟨heq, hnil⟩ := h'.ended e he
      exact ⟨h.endings_eq.trans heq, hnil⟩

theorem Kept.nothing (s : TokenStream) {ds : List (Delivery × TokenStream)}
    (hds : ds = [] ∨ ds = [(.nothing, s)]) : Kept s s ds := by
  rcases hds with rfl | rfl
  · exact .refl s
  · exact ⟨rfl, rfl, fun _ he => absurd he List.not_mem_nil, rfl⟩

theorem advance_kept (s : TokenStream) : Kept s s.next.2 [s.next] := by
  obtain ⟨scanner, finished⟩ := s
  cases finished with
  | true => exact .nothing _ (.inr rfl)
  | false =>
    have hfile := scanner.next_file
    cases hn : scanner.next with
    | token t after =>
      rw [hn] at hfile
      have htrace : (restart { scanner := scanner }).trace =
          (.token t, { scanner := after }) :: trace { scanner := after } := trace_of_token hn
      rw [next_of_token hn]
      refine ⟨?_, ?_, fun _ he => absurd he List.not_mem_nil, hfile⟩
      · rw [htrace]
        rfl
      · rw [htrace]
        rfl
    | ended e after =>
      have hagain := trace_of_ended (Scanner.next_of_ended hn)
      rw [hn] at hfile
      rw [next_of_ended hn]
      refine ⟨?_, ?_, ?_, hfile⟩
      · exact (congrArg readings (trace_of_ended hn)).trans (congrArg readings hagain).symm
      · exact (congrArg endings (trace_of_ended hn)).trans (congrArg endings hagain).symm
      · intro e' he'
        obtain rfl := List.mem_singleton.1 he'
        exact ⟨congrArg endings (trace_of_ended hn), congrArg readings hagain⟩

theorem scan_last_file (s : Scanner) : s.scan.last.file = s.file := by
  induction h : s.rest.length using Nat.strongRecOn generalizing s with
  | ind n ih =>
    have hfile := s.next_file
    rw [Scanner.scan_eq]
    cases hn : s.next with
    | token t after =>
      rw [hn] at hfile
      have hlt := Scanner.next_rest_lt hn
      rw [h] at hlt
      exact (ih _ hlt after rfl).trans hfile
    | ended e after =>
      rw [hn] at hfile
      exact hfile

theorem drain_kept (s : TokenStream) : Kept s s.rest.2.2 s.trace := by
  obtain ⟨scanner, finished⟩ := s
  cases finished with
  | true => exact .nothing _ (.inl (trace_of_finished rfl))
  | false =>
    obtain ⟨-, hending, hlast⟩ := trace_scan scanner
    have hagain := trace_of_ended hlast
    refine ⟨?_, ?_, ?_, scan_last_file scanner⟩
    · refine (List.append_nil _).symm.trans (congrArg (_ ++ ·) ?_)
      exact (congrArg readings hagain).symm
    · exact hending.trans (congrArg endings hagain).symm
    · intro e he
      rw [hending] at he
      obtain rfl := List.mem_singleton.1 he
      exact ⟨hending, congrArg readings hagain⟩

theorem Move.kept (m : Move) (s : TokenStream) : Kept s (m.after s) (m.deliveries s) := by
  cases m with
  | advance => exact advance_kept s
  | drain => exact drain_kept s
  | restart => exact ⟨rfl, rfl, fun _ he => absurd he List.not_mem_nil, rfl⟩

theorem play_kept (ms : List Move) (s : TokenStream) : Kept s (play ms s).2 (play ms s).1 := by
  induction ms generalizing s with
  | nil => exact .refl s
  | cons m ms ih => exact (m.kept s).trans (ih (m.after s))

/-- Some stream delivers nothing, or the last one has come to its end. -/
def Spent (ds : List (Delivery × TokenStream)) (after : TokenStream) : Prop :=
  (∃ s, (.nothing, s) ∈ ds) ∨ after.finished

/-- Where a move on an unfinished stream leaves it spent, the end is among what it delivers. -/
theorem Move.ends (m : Move) {s : TokenStream} (h : Spent (m.deliveries s) (m.after s)) :
    s.finished ∨ ∃ e, e ∈ endings (m.deliveries s) := by
  obtain ⟨scanner, finished⟩ := s
  cases finished with
  | true => exact .inl rfl
  | false =>
    refine .inr ?_
    cases m with
    | restart =>
      obtain ⟨s, hs⟩ | hfinished := h
      · cases hs
      · cases hfinished
    | drain =>
      refine ⟨scanner.scan.ending, ?_⟩
      rw [deliveries, (trace_scan scanner).2.1]
      exact List.mem_singleton_self _
    | advance =>
      cases hn : scanner.next with
      | token t after =>
        obtain ⟨s, hs⟩ | hfinished := h
        · rw [deliveries, next_of_token hn] at hs
          cases List.mem_singleton.1 hs
        · rw [Move.after, next_of_token hn] at hfinished
          cases hfinished
      | ended e after =>
        rw [deliveries, next_of_ended hn]
        exact ⟨e, List.mem_singleton_self _⟩

theorem play_ends (ms : List Move) {s : TokenStream} (h : Spent (play ms s).1 (play ms s).2) :
    s.finished ∨ ∃ e, e ∈ endings (play ms s).1 := by
  induction ms generalizing s with
  | nil =>
    obtain ⟨s', hs⟩ | hfinished := h
    · cases hs
    · exact .inl hfinished
  | cons m ms ih =>
    -- the end was met by this move, or behind it
    have hsplit : Spent (m.deliveries s) (m.after s) ∨
        ∃ e, e ∈ endings (play ms (m.after s)).1 := by
      obtain ⟨s', hs⟩ | hfinished := h
      · obtain hs | hs := List.mem_append.1 hs
        · exact .inl (.inl ⟨s', hs⟩)
        · exact (ih (.inl ⟨s', hs⟩)).imp .inr id
      · exact (ih (.inr hfinished)).imp .inr id
    rw [show endings (play (m :: ms) s).1 =
      endings (m.deliveries s) ++ endings (play ms (m.after s)).1 from endings_append _ _]
    obtain hspent | ⟨e, he⟩ := hsplit
    · exact (m.ends hspent).imp id fun ⟨e, he⟩ => ⟨e, List.mem_append_left _ he⟩
    · exact .inr ⟨e, List.mem_append_right _ he⟩

/-- Any schedule on a text, against a single stream that is never left. A stream is what it gives
next and the stream behind that, until it has come to the end; to take all that is left is to take
this to the end. What the streams of the schedule deliver, one behind the other, is what the single
one delivers, up to some token, and the mode and the depth behind each token are the same. It is all
of it once one of them has come to the end, or gives nothing. From there on nothing but the same
ending is delivered, with the same report and the same record, by whatever stream. -/
theorem play_resumes (text : String) (file : Option String) (ms : List Move) :
    let whole := (ofText text file).trace
    let ending := (Scanner.ofText text file).scan.ending
    let (ds, s) := play ms (ofText text file)
    (∀ s : TokenStream,
      s.trace = (if s.finished then [] else s.next :: s.next.2.trace) ∧
      (s.finished = false → s.next.1 ≠ .nothing) ∧ (s.finished → s.next = (.nothing, s)) ∧
      s.rest.1 = (readings s.trace).map (·.1) ∧ s.rest.2.1 = (endings s.trace).head? ∧
      s.rest.2.2 = s.trace.getLast?.elim s (·.2)) ∧
    (readings whole).map (·.1) = (Scanner.ofText text file).scan.tokens ∧
    endings whole = [ending] ∧
    readings ds <+: readings whole ∧
    (∀ e ∈ endings ds, e = ending ∧ readings ds = readings whole) ∧
    (Spent ds s → readings ds = readings whole) ∧
    s.scanner.file = file ∧
    (readings ds = readings whole →
      s.restart.next.1 = .ended ending ∧
      s.restart.rest.1 = [] ∧ s.restart.rest.2.1 = some ending ∧
      ∀ ms', readings (play ms' s).1 = [] ∧ ∀ e ∈ endings (play ms' s).1, e = ending) := by
  intro whole ending
  have htokens : (readings whole).map (·.1) = (Scanner.ofText text file).scan.tokens :=
    (trace_scan _).1
  have hending : endings whole = [ending] := (trace_scan _).2.1
  have hkept := play_kept ms (ofText text file)
  have hends := play_ends ms (s := ofText text file)
  generalize play ms (ofText text file) = played at hkept hends ⊢
  obtain ⟨ds, s⟩ := played
  have hreadings : readings whole = readings ds ++ readings s.restart.trace := hkept.readings_eq
  have hrestart : endings s.restart.trace = [ending] := hkept.endings_eq.symm.trans hending
  have hended : ∀ e ∈ endings ds, e = ending ∧ readings ds = readings whole := by
    intro e he
    obtain ⟨heq, hnil⟩ := hkept.ended e he
    rw [hnil, List.append_nil] at hreadings
    exact ⟨List.singleton_inj.1 (heq.symm.trans hending), hreadings.symm⟩
  refine ⟨fun s => ⟨trace_eq_next s, next_ne_nothing, next_of_finished, rest_eq_trace s⟩, htokens,
    hending, ⟨_, hreadings.symm⟩, hended, ?_, hkept.file_eq, ?_⟩
  · intro hspent
    obtain hfinished | ⟨e, he⟩ := hends hspent
    · cases hfinished
    · exact (hended e he).2
  · intro hall
    have hnil : readings s.restart.trace = [] := by
      rw [← hall] at hreadings
      exact List.self_eq_append_right.1 hreadings
    obtain ⟨hrest, hrestEnding, -⟩ := rest_eq_trace s.restart
    refine ⟨?_, ?_, ?_, fun ms' => ?_⟩
    · obtain ⟨after, hn⟩ := next_of_readings_nil hnil
      have hsame : [s.scanner.scan.ending] = [ending] := (trace_scan _).2.1.symm.trans hrestart
      rw [List.singleton_inj.1 hsame] at hn
      exact congrArg Prod.fst (next_of_ended hn)
    · rw [hrest, hnil, List.map_nil]
    · rw [hrestEnding, hrestart, List.head?_singleton]
    · have hmore := play_kept ms' s
      refine ⟨?_, fun e he => ?_⟩
      · have happend := hmore.readings_eq
        rw [hnil] at happend
        exact (List.append_eq_nil_iff.1 happend.symm).1
      · exact List.singleton_inj.1 ((hmore.ended e he).1.symm.trans hrestart)

end TokenStream
end Spintax
