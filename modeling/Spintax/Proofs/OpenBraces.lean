import Spintax.Token

/-!
# Spintax.Proofs.OpenBraces

Which braces of a list of tokens are still open at its end.

* `Flat ts`: every brace of `ts` has its partner in `ts`.
* `Unclosed ts i`: the opening brace with the index `i` is never closed.
* `Innermost ts i`: no later one is unclosed.
* `Nest ts indices`: `ts` is flat but for the opening braces with these indices, the last one first.
  `Nest.innermost` and `Nest.not_unclosed` tell its last unclosed brace, `Nest.mem_iff_unclosed` all
  of them.
-/

namespace Spintax

variable {ts us : List Token} {t : Token}

def openings (ts : List Token) : Nat :=
  ts.countP fun t => t.kind = .opening

def closings (ts : List Token) : Nat :=
  ts.countP fun t => t.kind = .closing

@[simp] theorem openings_append (ts us : List Token) :
    openings (ts ++ us) = openings ts + openings us :=
  List.countP_append

@[simp] theorem closings_append (ts us : List Token) :
    closings (ts ++ us) = closings ts + closings us :=
  List.countP_append

theorem openings_cons (t : Token) (ts : List Token) :
    openings (t :: ts) = openings ts + if t.kind = .opening then 1 else 0 := by
  simp [openings, List.countP_cons]

theorem closings_cons (t : Token) (ts : List Token) :
    closings (t :: ts) = closings ts + if t.kind = .closing then 1 else 0 := by
  simp [closings, List.countP_cons]

/-- No more braces are closed than were opened, at any point. -/
def Closable (ts : List Token) : Prop :=
  ∀ n, closings (ts.take n) ≤ openings (ts.take n)

/-- All braces that are opened are closed, and no others. -/
structure Flat (ts : List Token) : Prop where
  closable : Closable ts
  closings_eq : closings ts = openings ts

/-- The opening brace with this index is not closed by any token behind it. -/
structure Unclosed (ts : List Token) (i : Nat) : Prop where
  opening : ∃ t, ts[i]? = some t ∧ t.kind = .opening
  closable : Closable (ts.drop (i + 1))

/-- The innermost of the blocks that are open at the end starts with this index. -/
structure Innermost (ts : List Token) (i : Nat) : Prop where
  unclosed : Unclosed ts i
  last : ∀ j, Unclosed ts j → j ≤ i

theorem Closable.append (h : Closable ts) (h' : Closable us) : Closable (ts ++ us) := by
  intro n
  have := h n
  have := h' (n - ts.length)
  rw [List.take_append, closings_append, openings_append]
  omega

theorem Closable.of_append (h : Closable (ts ++ us)) : Closable ts := by
  intro n
  have hn := h (min n ts.length)
  rwa [List.take_append_of_le_length (Nat.min_le_right _ _), ← List.take_eq_take_min] at hn

theorem Closable.cons_opening (h : Closable ts) (hk : t.kind = .opening) : Closable (t :: ts) := by
  intro n
  cases n with
  | zero => exact Nat.le_refl _
  | succ n =>
    have := h n
    rw [List.take_succ_cons, closings_cons, openings_cons]
    simp only [hk, reduceCtorEq, if_false, if_true]
    omega

theorem Closable.le (h : Closable ts) : closings ts ≤ openings ts := by
  have := h ts.length
  rwa [List.take_length] at this

/-- Tokens that close nothing before them leave the braces there as they are. -/
theorem unclosed_append_iff {i : Nat} (hi : i < ts.length) (h : Closable us) :
    Unclosed (ts ++ us) i ↔ Unclosed ts i := by
  have hget : (ts ++ us)[i]? = ts[i]? := List.getElem?_append_left hi
  have hdrop : (ts ++ us).drop (i + 1) = ts.drop (i + 1) ++ us :=
    List.drop_append_of_le_length hi
  constructor
  · rintro ⟨ho, hc⟩
    rw [hget] at ho
    rw [hdrop] at hc
    exact ⟨ho, hc.of_append⟩
  · rintro ⟨ho, hc⟩
    refine ⟨by rwa [hget], ?_⟩
    rw [hdrop]
    exact hc.append h

namespace Flat

theorem nil : Flat [] :=
  ⟨fun n => by simp [closings], rfl⟩

theorem append (h : Flat ts) (h' : Flat us) : Flat (ts ++ us) := by
  refine ⟨h.closable.append h'.closable, ?_⟩
  rw [closings_append, openings_append, h.closings_eq, h'.closings_eq]

theorem singleton (ho : t.kind ≠ .opening) (hc : t.kind ≠ .closing) : Flat [t] := by
  have hzero : closings [t] = 0 ∧ openings [t] = 0 := by simp [closings, openings, ho, hc]
  refine ⟨fun n => ?_, hzero.1.trans hzero.2.symm⟩
  cases n with
  | zero => exact Nat.le_refl _
  | succ n =>
    rw [List.take_of_length_le (by simp), hzero.1]
    exact Nat.zero_le _

/-- A block around braces that have their partners. -/
theorem enclosed {o c : Token} (h : Flat ts) (ho : o.kind = .opening) (hc : c.kind = .closing) :
    Flat (o :: (ts ++ [c])) := by
  have hone : closings [c] = 1 ∧ openings [c] = 0 := by simp [closings, openings, hc]
  refine ⟨fun n => ?_, ?_⟩
  · cases n with
    | zero => exact Nat.le_refl _
    | succ n =>
      have hts := h.closable n
      have hle : closings ([c].take (n - ts.length)) ≤ 1 := by
        rw [← hone.1]
        exact (List.take_sublist _ _).countP_le
      rw [List.take_succ_cons, List.take_append, closings_cons, openings_cons, closings_append,
        openings_append]
      simp only [ho, if_true, reduceCtorEq, if_false]
      omega
  · rw [closings_cons, openings_cons, closings_append, openings_append, hone.1, hone.2,
      h.closings_eq]
    simp [ho]

/-- An unclosed brace has no partner. -/
theorem not_unclosed (h : Flat ts) (i : Nat) : ¬ Unclosed ts i := by
  rintro ⟨⟨t, ht, hk⟩, hafter⟩
  obtain ⟨hlt, rfl⟩ := List.getElem?_eq_some_iff.1 ht
  have hsplit : ts = ts.take i ++ ts[i] :: ts.drop (i + 1) := by simp
  have hbefore := h.closable i
  have hle := hafter.le
  have heq := h.closings_eq
  rw [hsplit, closings_append, openings_append, closings_cons, openings_cons] at heq
  simp only [hk, if_true, reduceCtorEq, if_false] at heq
  omega

end Flat

/-! ## Open blocks -/

/-- Flat but for the opening braces with these indices, the last one first. -/
inductive Nest : List Token → List Nat → Prop where
  | flat {ts : List Token} : Flat ts → Nest ts []
  | opened {ts us : List Token} {t : Token} {indices : List Nat} :
      Nest ts indices → t.kind = .opening → Flat us → Nest (ts ++ t :: us) (ts.length :: indices)

namespace Nest

variable {indices : List Nat} {i : Nat}

theorem append (h : Nest ts indices) (hu : Flat us) : Nest (ts ++ us) indices := by
  cases h with
  | flat hf => exact .flat (hf.append hu)
  | opened hn hk hf =>
    rw [List.append_assoc, List.cons_append]
    exact .opened hn hk (hf.append hu)

theorem concat_opening (h : Nest ts indices) (hk : t.kind = .opening) :
    Nest (ts ++ [t]) (ts.length :: indices) :=
  .opened h hk .nil

/-- A closing brace is the partner of the last open one. -/
theorem concat_closing (h : Nest ts (i :: indices)) (hk : t.kind = .closing) :
    Nest (ts ++ [t]) indices := by
  cases h with
  | opened hn ho hf =>
    rw [List.append_assoc, List.cons_append]
    exact hn.append (hf.enclosed ho hk)

theorem not_unclosed (h : Nest ts []) (j : Nat) : ¬ Unclosed ts j := by
  cases h with
  | flat hf => exact hf.not_unclosed j

theorem drop_behind (ts : List Token) (t : Token) (us : List Token) (k : Nat) :
    (ts ++ t :: us).drop (ts.length + 1 + k) = us.drop k := by
  have hlen : ts.length + 1 = (ts ++ [t]).length := by simp
  rw [← List.drop_drop, List.append_cons, hlen, List.drop_left]

theorem innermost (h : Nest ts (i :: indices)) : Innermost ts i := by
  cases h with
  | @opened ts us t _ hn hk hf =>
    refine ⟨⟨⟨t, by simp, hk⟩, ?_⟩, ?_⟩
    · have hdrop := drop_behind ts t us 0
      rw [Nat.add_zero, List.drop_zero] at hdrop
      rw [hdrop]
      exact hf.closable
    · rintro j ⟨⟨u, hu, huk⟩, hclosable⟩
      refine Nat.le_of_not_lt fun hlt => ?_
      obtain ⟨k, rfl⟩ : ∃ k, j = ts.length + 1 + k := ⟨j - (ts.length + 1), by omega⟩
      rw [← List.head?_drop, drop_behind, List.head?_drop] at hu
      rw [Nat.add_assoc, drop_behind] at hclosable
      exact hf.not_unclosed k ⟨⟨u, hu, huk⟩, hclosable⟩

theorem lt_length (h : Nest ts indices) (hi : i ∈ indices) : i < ts.length := by
  induction h with
  | flat => cases hi
  | opened _ _ _ ih =>
    rw [List.length_append, List.length_cons]
    cases hi with
    | head => omega
    | tail _ hi =>
      have := ih hi
      omega

theorem nodup (h : Nest ts indices) : indices.Nodup := by
  induction h with
  | flat => exact List.nodup_nil
  | opened hn _ _ ih =>
    exact List.nodup_cons.2 ⟨fun hi => Nat.lt_irrefl _ (hn.lt_length hi), ih⟩

/-- These are all unclosed braces, and no others. -/
theorem mem_iff_unclosed (h : Nest ts indices) : i ∈ indices ↔ Unclosed ts i := by
  induction h with
  | flat hf => exact iff_of_false List.not_mem_nil (hf.not_unclosed i)
  | @opened ts us t indices hn hk hf ih =>
    have hin := (hn.opened hk hf).innermost
    rw [List.mem_cons]
    rcases Nat.lt_trichotomy i ts.length with hlt | rfl | hgt
    · have hne : ¬ i = ts.length := Nat.ne_of_lt hlt
      rw [unclosed_append_iff hlt (hf.closable.cons_opening hk), ← ih, or_iff_right hne]
    · exact iff_of_true (.inl rfl) hin.unclosed
    · refine iff_of_false ?_ fun hu => Nat.not_le.2 hgt (hin.last i hu)
      rintro (rfl | hi)
      · exact Nat.lt_irrefl _ hgt
      · exact Nat.lt_asymm hgt (hn.lt_length hi)

end Nest
end Spintax
