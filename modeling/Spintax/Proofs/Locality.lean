import Spintax.Proofs.Cuts
import Spintax.Proofs.Resumption
import Spintax.Proofs.Tiling

/-!
# Spintax.Proofs.Locality

One text with two different ends. What a stream gives in front of the place where the ends differ is
the same for both, and only one token may reach across that place: a run of plain characters, which
goes on as far as the end that it meets lets it.

* `trail`: lexemes as a stream gives them, each with the mode and the depth behind it.
* `readings_of_lexed`: what a stream gives is the trail of the lexemes of its text.
* `Token.grown`: a run with more characters.
* `Parts`: what a stream gives on a text, and on that text with any end. `exists_parts`: there are
  such parts for every text, whether it is cut inside an escape, inside a run, or between tokens.
* `readings_local`: two ends of one text.
-/

namespace Spintax

/-- The mode that a character is read in, with `d` blocks open. -/
def Mode.inner (d : Nat) : Mode :=
  if 0 < d then .block else .normal

theorem Mode.plain_inner (d : Nat) (c : Char) :
    (Mode.inner d).plain c = true ↔ ¬ Stops d c := by
  have hm : ({ rest := [], modes := Mode.stack d } : Scanner).modes = Mode.stack d := rfl
  rw [← Scanner.plain_iff hm, Scanner.mode_of_stack hm]
  rfl

instance (cs : List Char) (t : Token) : Decidable (t.IsRun cs) :=
  inferInstanceAs (Decidable (t.kind = .text ∧ '\\' ∉ t.piece cs))

/-- The tokens of lexemes that stand one behind the other from `m` on, each with the mode and the
depth behind it. -/
def trail (file : Option String) (m : Mark) (d : Nat) : List Lexeme → List (Token × Mode × Nat)
  | [] => []
  | x :: xs =>
    (x.token file m, .inner (x.depth d), x.depth d) :: trail file (m.past x.chars) (x.depth d) xs

section Trail

variable {file : Option String} {m : Mark} {d : Nat} {xs : List Lexeme} {r : Token × Mode × Nat}

theorem trail_append (ys : List Lexeme) :
    trail file m d (xs ++ ys) =
      trail file m d xs ++ trail file (m.past (xs.flatMap Lexeme.chars)) (depthAfter d xs) ys := by
  induction xs generalizing m d with
  | nil => rfl
  | cons x xs ih =>
    rw [List.cons_append, trail, trail, ih, List.flatMap_cons, Mark.past_append, List.cons_append,
      depthAfter_cons]

theorem exists_of_mem_trail (h : r ∈ trail file m d xs) :
    ∃ before x after, xs = before ++ x :: after ∧
      r.1 = x.token file (m.past (before.flatMap Lexeme.chars)) := by
  induction xs generalizing m d with
  | nil => cases h
  | cons x xs ih =>
    rcases List.mem_cons.1 h with rfl | h
    · exact ⟨[], x, xs, rfl, rfl⟩
    · obtain ⟨before, y, after, rfl, hr⟩ := ih h
      refine ⟨x :: before, y, after, rfl, ?_⟩
      rw [hr, List.flatMap_cons, Mark.past_append]

theorem lt_stop_of_mem_trail (h : r ∈ trail file m d xs) : m.offset < r.1.location.stop := by
  obtain ⟨before, x, after, -, hr⟩ := exists_of_mem_trail h
  have hlength := List.length_pos_iff.2 x.chars_ne_nil
  simp only [hr, Lexeme.token, Mark.past_offset]
  omega

theorem stop_le_of_mem_trail (h : r ∈ trail file m d xs) :
    r.1.location.stop ≤ (m.past (xs.flatMap Lexeme.chars)).offset := by
  obtain ⟨before, x, after, rfl, hr⟩ := exists_of_mem_trail h
  simp only [hr, Lexeme.token, Mark.past_offset, List.flatMap_append, List.flatMap_cons,
    List.length_append]
  omega

end Trail

namespace TokenStream

theorem readings_of_lexed {d : Nat} {cs tail : List Char} {xs : List Lexeme}
    (h : Lexed d cs xs tail) :
    ∀ s : Scanner, s.modes = Mode.stack d → s.rest = cs →
      readings (trace { scanner := s }) = trail s.file s.here d xs := by
  induction h with
  | @nil d =>
    intro s hm hr
    rw [trace_of_ended (Scanner.next_of_nil hr)]
    rfl
  | @lone d =>
    intro s hm hr
    have hnext : s.next = .ended (.dangling s.here) (s.backslash '\\' []).2 := by
      rw [Scanner.next_of_cons hr, Scanner.step_backslash hm]
      exact Scanner.next_of_nil rfl
    rw [trace_of_ended hnext]
    rfl
  | @cons d cs rest tail x xs hx _ ih =>
    intro s hm hr
    obtain ⟨s', hnext, hrest, hmodes, hhere, hfile⟩ := Scanner.next_of_reads hm (hr ▸ hx)
    have hmode : s'.mode = .inner (x.depth d) := Scanner.mode_of_stack hmodes
    have hdepth : s'.depth = x.depth d := by rw [Scanner.depth, hmodes, Mode.count_stack]
    rw [trace_of_token hnext, trail, ← hhere, ← hfile, ← ih s' hmodes hrest, ← hmode, ← hdepth]
    rfl

end TokenStream

/-! ## What an end can change -/

/-- The run with `cs` behind it. -/
def Token.grown (cs : List Char) (t : Token) : Token :=
  { t with
    value := t.value ++ String.ofList cs
    location := { t.location with stop := t.location.stop + cs.length } }

/-- The run that a token is part of, where the text goes on with `cs`: all that is plain in the mode
that the token was read in. -/
def grow (cs : List Char) (r : Token × Mode × Nat) : Token × Mode × Nat :=
  (r.1.grown (cs.takeWhile r.2.1.plain), r.2)

theorem grow_nil (r : Token × Mode × Nat) : grow [] r = r := by
  simp [grow, Token.grown]

theorem token_grown (file : Option String) (m : Mark) (c : Char) (cs ds : List Char) :
    ((Lexeme.run c cs).token file m).grown ds = (Lexeme.run c (cs ++ ds)).token file m := by
  simp only [Token.grown, Lexeme.token, Lexeme.kind, Lexeme.value, Lexeme.chars, Mark.past_offset,
    List.length_cons, List.length_append, ← String.ofList_append, List.cons_append]
  congr 2
  omega

/-- What a stream gives on the text `p`, whatever stands behind it: first `settled`, then the run
`last` with all that it can take of what is behind, and then tokens that end there. -/
structure Parts (file : Option String) (p : String) (settled : List (Token × Mode × Nat))
    (last : Option (Token × Mode × Nat)) : Prop where
  settled_le : ∀ r ∈ settled, r.1.location.stop < p.length ∨
    last = none ∧ r.1.location.stop = p.length ∧ ¬ r.1.IsRun p.toList
  last_eq : ∀ r ∈ last, r.1.location.stop = p.length ∧ r.1.IsRun p.toList
  grows : ∀ s : String, ∃ more,
    TokenStream.readings (TokenStream.ofText (p ++ s) file).trace =
      settled ++ (last.map (grow s.toList)).toList ++ more ∧
    ∀ r ∈ more, p.length < r.1.location.stop

section Parts

variable {file : Option String} {p : String} {xs ys : List Lexeme} {d : Nat} {cs tail : List Char}

theorem readings_of_text {text : String} (h : Lexed 0 text.toList xs tail) (file : Option String) :
    TokenStream.readings (TokenStream.ofText text file).trace = trail file {} 0 xs :=
  TokenStream.readings_of_lexed h (.ofText text file) rfl rfl

/-- The lexemes of a text with an end, where those of the text do not go on in it. -/
theorem readings_append {s : String} (h : Cut 0 xs)
    (hp : p.toList = xs.flatMap Lexeme.chars ++ cs)
    (hs : Lexed (depthAfter 0 xs) (cs ++ s.toList) ys tail)
    (hseam : ∀ x ∈ xs.getLast?, x.isRun → ∀ e, (cs ++ s.toList).head? = some e →
      Stops (depthAfter 0 xs) e) :
    TokenStream.readings (TokenStream.ofText (p ++ s) file).trace =
      trail file {} 0 xs ++
        trail file (({} : Mark).past (xs.flatMap Lexeme.chars)) (depthAfter 0 xs) ys := by
  have htext : (p ++ s).toList = xs.flatMap Lexeme.chars ++ (cs ++ s.toList) := by
    rw [String.toList_append, hp, List.append_assoc]
  have hlexed := h.lexed_append hs hseam
  rw [← htext] at hlexed
  rw [readings_of_text hlexed, trail_append]

theorem offset_eq (hp : p.toList = cs) : (({} : Mark).past cs).offset = p.length := by
  rw [Mark.past_offset, Nat.zero_add, ← hp, String.length_toList]

theorem piece_token {before after : List Char} {x : Lexeme}
    (h : cs = before ++ x.chars ++ after) :
    (x.token file (({} : Mark).past before)).piece cs = x.chars := by
  simp only [Token.piece, Lexeme.token, Mark.past_offset, Int.toNat_natCast, Nat.zero_add, h]
  exact slice_middle before x.chars after

/-- A lexeme has a run for its token if and only if it is one. -/
theorem isRun_token_iff {before after : List Char} {x : Lexeme} (hx : x.Fits d)
    (h : cs = before ++ x.chars ++ after) :
    (x.token file (({} : Mark).past before)).IsRun cs ↔ x.isRun := by
  rw [Token.IsRun, piece_token h]
  cases x with
  | opening => simp [Lexeme.token, Lexeme.kind, Lexeme.isRun]
  | closing => simp [Lexeme.token, Lexeme.kind, Lexeme.isRun]
  | bar => simp [Lexeme.token, Lexeme.kind, Lexeme.isRun]
  | escape c => simp [Lexeme.chars, Lexeme.isRun]
  | run c cs =>
    have hsign : '\\' ∉ c :: cs := fun hmem => hx _ hmem (.inr (.inr (.inl rfl)))
    exact iff_of_true ⟨rfl, hsign⟩ rfl

/-- Between tokens. No run stands in front of the end. -/
theorem parts_of_closed (h : Cut 0 xs) (hp : p.toList = xs.flatMap Lexeme.chars)
    (hlast : ∀ x ∈ xs.getLast?, ¬ x.isRun) : Parts file p (trail file {} 0 xs) none := by
  refine ⟨?_, by simp, fun s => ?_⟩
  · intro r hr
    obtain ⟨before, x, after, rfl, hx⟩ := exists_of_mem_trail hr
    have hstop : r.1.location.stop =
        (({} : Mark).past (before.flatMap Lexeme.chars ++ x.chars)).offset := by
      rw [hx, Mark.past_append]
      rfl
    rw [List.flatMap_append, List.flatMap_cons, ← List.append_assoc] at hp
    rw [hstop, ← offset_eq hp, Mark.past_append _ _ (after.flatMap Lexeme.chars)]
    cases after with
    | nil =>
      obtain ⟨-, ⟨⟨hfits, -⟩, -⟩, -⟩ := cut_append.1 h
      refine .inr ⟨rfl, rfl, ?_⟩
      rw [hx, isRun_token_iff hfits hp]
      exact hlast x (by simp)
    | cons y ys =>
      have hlength := List.length_pos_iff.2 y.chars_ne_nil
      refine .inl ?_
      rw [Mark.past_offset _ (List.flatMap _ _), List.flatMap_cons, List.length_append]
      omega
  · obtain ⟨ys, tail, hys⟩ := exists_lexed (depthAfter 0 xs) s.toList
    refine ⟨trail file (({} : Mark).past (xs.flatMap Lexeme.chars)) (depthAfter 0 xs) ys, ?_, ?_⟩
    · have hp' : p.toList = xs.flatMap Lexeme.chars ++ [] := by rw [hp, List.append_nil]
      rw [readings_append h hp' hys fun x hx hrun => absurd hrun (hlast x hx)]
      simp only [Option.map_none, Option.toList_none, List.append_nil]
    · intro r hr
      have hlt := lt_stop_of_mem_trail hr
      rwa [offset_eq hp] at hlt

/-- Inside an escape. The backslash in front of the end takes the next character. -/
theorem parts_of_lone (h : Cut 0 xs) (hp : p.toList = xs.flatMap Lexeme.chars ++ ['\\']) :
    Parts file p (trail file {} 0 xs) none := by
  have hlength : p.length = (({} : Mark).past (xs.flatMap Lexeme.chars)).offset + 1 := by
    rw [← offset_eq hp, Mark.past_append, Mark.past_offset _ ['\\']]
    rfl
  refine ⟨?_, by simp, fun s => ?_⟩
  · intro r hr
    have hle := stop_le_of_mem_trail hr
    refine .inl ?_
    omega
  · obtain ⟨ys, tail, hys⟩ := exists_lexed (depthAfter 0 xs) ('\\' :: s.toList)
    refine ⟨trail file (({} : Mark).past (xs.flatMap Lexeme.chars)) (depthAfter 0 xs) ys, ?_, ?_⟩
    · rw [readings_append h hp hys fun x _ _ e he => by cases he; exact .inr (.inr (.inl rfl))]
      simp only [Option.map_none, Option.toList_none, List.append_nil]
    · intro r hr
      generalize s.toList = es at hys
      cases hys with
      | lone => cases hr
      | cons hy hys =>
        cases hy with
        | run hplain _ _ => exact absurd (hplain '\\' (by simp)) (by simp [Stops])
        | escape =>
          rcases List.mem_cons.1 hr with rfl | hr
          · simp only [Lexeme.token, Lexeme.chars, Mark.past_offset] at hlength ⊢
            simp only [List.length_cons, List.length_nil]
            omega
          · have hlt := lt_stop_of_mem_trail hr
            simp only [Lexeme.chars, Mark.past_offset] at hlength hlt
            simp only [List.length_cons, List.length_nil] at hlt
            omega

/-- Inside a run, or right behind it. -/
theorem parts_of_run {c : Char} (h : Cut 0 (xs ++ [.run c cs]))
    (hp : p.toList = xs.flatMap Lexeme.chars ++ c :: cs) :
    Parts file p (trail file {} 0 xs)
      (some ((Lexeme.run c cs).token file (({} : Mark).past (xs.flatMap Lexeme.chars)),
        .inner (depthAfter 0 xs), depthAfter 0 xs)) := by
  obtain ⟨hxs, ⟨⟨hfits, -⟩, -⟩, hapart⟩ := cut_append.1 h
  have hlength : p.length =
      (({} : Mark).past (xs.flatMap Lexeme.chars)).offset + (cs.length + 1) := by
    rw [← offset_eq hp, Mark.past_append, Mark.past_offset _ (c :: cs), List.length_cons]
  refine ⟨?_, ?_, fun s => ?_⟩
  · intro r hr
    have hle := stop_le_of_mem_trail hr
    refine .inl ?_
    omega
  · rintro r ⟨⟩
    have hchars : p.toList = xs.flatMap Lexeme.chars ++ (Lexeme.run c cs).chars ++ [] := by
      rw [hp, List.append_nil]
      rfl
    refine ⟨?_, (isRun_token_iff hfits hchars).2 rfl⟩
    simp only [Lexeme.token, Lexeme.chars]
    rw [hlength, Mark.past_offset _ (c :: cs), List.length_cons]
  · let d := depthAfter 0 xs
    let m := ({} : Mark).past (xs.flatMap Lexeme.chars)
    let more := s.toList.takeWhile (Mode.inner d).plain
    obtain ⟨ys, tail, hys⟩ := exists_lexed d (s.toList.dropWhile (Mode.inner d).plain)
    have hreads : Reads d (c :: cs ++ s.toList) (.run c (cs ++ more))
        (s.toList.dropWhile (Mode.inner d).plain) := by
      refine .run ?_ ?_ ?_
      · intro e he
        rw [← List.cons_append] at he
        rcases List.mem_append.1 he with he | he
        · exact hfits e he
        · exact (Mode.plain_inner d e).1 (List.all_eq_true.1 List.all_takeWhile e he)
      · intro e he
        have hstop := List.head?_dropWhile_not (Mode.inner d).plain s.toList
        rw [he] at hstop
        rwa [← not_not (a := Stops d e), ← Mode.plain_inner, Bool.not_eq_true]
      · rw [List.append_assoc, List.takeWhile_append_dropWhile]
        rfl
    refine ⟨trail file (m.past (Lexeme.run c (cs ++ more)).chars) d ys, ?_, ?_⟩
    · rw [readings_append hxs hp (.cons hreads hys) fun x hx hrun =>
        absurd ⟨hrun, rfl⟩ (hapart x hx (.run c cs) rfl)]
      rw [Option.map_some, Option.toList_some, grow, token_grown, List.append_assoc]
      rfl
    · intro r hr
      have hlt := lt_stop_of_mem_trail hr
      have hm : p.length = m.offset + (cs.length + 1) := hlength
      rw [Mark.past_offset, Lexeme.chars, List.length_cons, List.length_append] at hlt
      omega

/-- Every text is the beginning of texts that are read in such parts. -/
theorem exists_parts (file : Option String) (p : String) :
    ∃ settled last, Parts file p settled last := by
  obtain ⟨xs, tail, hxs⟩ := exists_lexed 0 p.toList
  have hp := hxs.chars_append
  have htail := hxs.tail_eq
  by_cases hlone : endsLone p.toList
  · rw [if_pos hlone] at htail
    rw [htail] at hp
    exact ⟨_, _, parts_of_lone hxs.cut hp⟩
  · rw [if_neg hlone] at htail
    rw [htail, List.append_nil] at hp
    rcases List.eq_nil_or_concat xs with rfl | ⟨zs, x, rfl⟩
    · exact ⟨_, _, parts_of_closed hxs.cut hp (by simp)⟩
    · rw [List.concat_eq_append] at hp hxs
      by_cases hrun : x.isRun
      · obtain ⟨c, cs, rfl⟩ := Lexeme.exists_of_isRun hrun
        rw [List.flatMap_append, List.flatMap_singleton] at hp
        exact ⟨_, _, parts_of_run hxs.cut hp⟩
      · exact ⟨_, _, parts_of_closed hxs.cut hp (by simpa using hrun)⟩

end Parts

/-! ## Two ends of one text -/

namespace Parts

variable {file : Option String} {p : String} {settled : List (Token × Mode × Nat)}
  {last : Option (Token × Mode × Nat)}

/-- A run that stops where it stopped before has taken nothing. -/
theorem grow_of_last (h : Parts file p settled last) {r : Token × Mode × Nat} (hr : last = some r)
    (cs : List Char) : (p.length : Int) ≤ (grow cs r).1.location.stop ∧
      ((grow cs r).1.location.stop = p.length → grow cs r = r) := by
  obtain ⟨hstop, -⟩ := h.last_eq r hr
  have hgrow : (grow cs r).1.location.stop = p.length + (cs.takeWhile r.2.1.plain).length := by
    rw [← hstop]
    rfl
  refine ⟨by omega, fun heq => ?_⟩
  have hnil : cs.takeWhile r.2.1.plain = [] := List.length_eq_zero_iff.1 (by omega)
  rw [grow, hnil]
  exact grow_nil r

/-- Where a run stops at the end of `p`, it is the last token on `p`. -/
theorem eq_last (h : Parts file p settled last) {s : String} {r : Token × Mode × Nat}
    (hr : r ∈ TokenStream.readings (TokenStream.ofText (p ++ s) file).trace)
    (hstop : r.1.location.stop = p.length) (hrun : r.1.IsRun p.toList) : last = some r := by
  obtain ⟨more, hon, hmore⟩ := h.grows s
  rw [hon] at hr
  rcases List.mem_append.1 hr with hr | hr
  · rcases List.mem_append.1 hr with hr | hr
    · obtain hlt | ⟨-, -, hnot⟩ := h.settled_le r hr
      · omega
      · exact absurd hrun hnot
    · rw [Option.mem_toList, Option.map_eq_some_iff] at hr
      obtain ⟨r', hr', rfl⟩ := hr
      rwa [(h.grow_of_last hr' _).2 hstop]
  · have hlt := hmore r hr
    omega

/-- All that stops in front of the end of `p`, or there and is no run, is the same for all ends. -/
theorem filter_eq (h : Parts file p settled last) {f : Token × Mode × Nat → Bool}
    (hf : ∀ r, f r → r.1.location.stop ≤ p.length ∧
      (r.1.location.stop = p.length → ¬ r.1.IsRun p.toList)) (s : String) :
    (TokenStream.readings (TokenStream.ofText (p ++ s) file).trace).filter f =
      settled.filter f := by
  obtain ⟨more, hon, hmore⟩ := h.grows s
  have hlast : (last.map (grow s.toList)).toList.filter f = [] := by
    refine List.filter_eq_nil_iff.2 fun r hr hfr => ?_
    rw [Option.mem_toList, Option.map_eq_some_iff] at hr
    obtain ⟨r', hr', rfl⟩ := hr
    obtain ⟨hle, hnot⟩ := hf _ hfr
    obtain ⟨hge, heq⟩ := h.grow_of_last hr' s.toList
    have hstop := Int.le_antisymm hle hge
    have hrun := (h.last_eq r' hr').2
    rw [← heq hstop] at hrun
    exact hnot hstop hrun
  have htail : more.filter f = [] := by
    refine List.filter_eq_nil_iff.2 fun r hr hfr => ?_
    have hlt := hmore r hr
    have hle := (hf r hfr).1
    omega
  rw [hon, List.filter_append, List.filter_append, hlast, htail, List.append_nil, List.append_nil]

end Parts

/-- Two ends `s₁` and `s₂` of one text `p`. The tokens that stop in front of the end are the same,
with the mode and the depth behind each, and so are those that stop right there and are no runs. A
run that stops there is one on `p` alone; and where there is one on `p` alone, each side has it with
all the characters of its end that are plain, behind the same tokens. -/
theorem readings_local (file : Option String) (p s₁ s₂ : String) :
    let on (s : String) : List (Token × Mode × Nat) :=
      TokenStream.readings (TokenStream.ofText (p ++ s) file).trace
    let alone : List (Token × Mode × Nat) :=
      TokenStream.readings (TokenStream.ofText p file).trace
    let stop (r : Token × Mode × Nat) : Int := r.1.location.stop
    (on s₁).filter (fun r => stop r < p.length) = (on s₂).filter (fun r => stop r < p.length) ∧
    (on s₁).filter (fun r => stop r = p.length ∧ ¬ r.1.IsRun p.toList) =
      (on s₂).filter (fun r => stop r = p.length ∧ ¬ r.1.IsRun p.toList) ∧
    (∀ r ∈ on s₁, stop r = p.length → r.1.IsRun p.toList → r ∈ alone) ∧
    ∀ r ∈ alone, stop r = p.length → r.1.IsRun p.toList →
      ∃ before more₁ more₂, on s₁ = before ++ grow s₁.toList r :: more₁ ∧
        on s₂ = before ++ grow s₂.toList r :: more₂ ∧ ∀ b ∈ before, stop b < p.length := by
  intro on alone stop
  obtain ⟨settled, last, h⟩ := exists_parts file p
  have halone : alone = on "" := by
    simp only [alone, on, String.append_empty]
  have hfront : ∀ s, (on s).filter (fun r => stop r < p.length) =
      settled.filter (fun r => stop r < p.length) := by
    refine h.filter_eq fun r hr => ?_
    have hlt : stop r < p.length := of_decide_eq_true hr
    exact ⟨Int.le_of_lt hlt, fun heq => absurd hlt (Int.not_lt.2 (Int.le_of_eq heq.symm))⟩
  have hthere : ∀ s, (on s).filter (fun r => stop r = p.length ∧ ¬ r.1.IsRun p.toList) =
      settled.filter (fun r => stop r = p.length ∧ ¬ r.1.IsRun p.toList) := by
    refine h.filter_eq fun r hr => ?_
    obtain ⟨heq, hrun⟩ := of_decide_eq_true hr
    exact ⟨Int.le_of_eq heq, fun _ => hrun⟩
  refine ⟨by rw [hfront, hfront], by rw [hthere, hthere], ?_, ?_⟩
  · intro r hr hstop hrun
    obtain ⟨more, hon, -⟩ := h.grows ""
    have hlast := h.eq_last hr hstop hrun
    have hsame : alone = settled ++ [r] ++ more := by
      rw [halone]
      refine hon.trans ?_
      rw [hlast, Option.map_some, String.toList_empty, grow_nil, Option.toList_some]
    rw [hsame]
    simp
  · intro r hr hstop hrun
    rw [halone] at hr
    have hlast := h.eq_last hr hstop hrun
    obtain ⟨more₁, hon₁, -⟩ := h.grows s₁
    obtain ⟨more₂, hon₂, -⟩ := h.grows s₂
    rw [hlast, Option.map_some, Option.toList_some, List.append_assoc] at hon₁ hon₂
    refine ⟨settled, more₁, more₂, hon₁, hon₂, fun b hb => ?_⟩
    obtain hlt | ⟨hnone, -⟩ := h.settled_le b hb
    · exact hlt
    · rw [hlast] at hnone
      cases hnone

/-- A run in a block is split. On one side it goes on to the bar, on the other it stops at once. -/
theorem readings_local_in_block :
    let r : Token × Mode × Nat := (⟨.text, "a", 1, 2, 1, 2, none⟩, .block, 1)
    let on (s : String) :=
      TokenStream.readings (TokenStream.ofText ("\x7ba" ++ s) none).trace
    r ∈ TokenStream.readings (TokenStream.ofText "\x7ba" none).trace ∧
      ∃ before more₁ more₂,
        on "b|c" = before ++ (⟨.text, "ab", 1, 2, 1, 3, none⟩, .block, 1) :: more₁ ∧
        on "|c" = before ++ r :: more₂ := by
  intro r on
  have hxs : Lexed 0 "\x7ba".toList [.opening, .run 'a' []] [] :=
    (show Cut 0 [.opening, .run 'a' []] by decide).lexed
  have hr : r ∈ TokenStream.readings (TokenStream.ofText "\x7ba" none).trace := by
    rw [readings_of_text hxs]
    decide
  obtain ⟨-, -, -, hruns⟩ := readings_local none "\x7ba" "b|c" "|c"
  obtain ⟨before, more₁, more₂, hon₁, hon₂, -⟩ := hruns r hr (by decide) (by decide)
  exact ⟨hr, before, more₁, more₂, hon₁, hon₂⟩

end Spintax
