import Mathlib.Data.List.Chain
import Spintax.Proofs.Sweep

/-!
# Spintax.Proofs.Cuts

The lists of lexemes that a text is cut into, told from the list alone: every lexeme can stand at
its depth, and no two runs are neighbours. So such lists can be put together and taken apart with
no text at hand.

* `Fitting d xs`: every lexeme of `xs` can stand where it is, `d` blocks being open in front.
* `Cut d xs`: the same, and no run could be longer. `lexed_iff_cut`: these are the lists that texts
  are cut into.
* `level k w`: the blocks open behind `w`, where `w` closes and divides no block but its own and
  the `k` innermost ones around it.
* `fitting_inside`: such a list can also stand where only those `k` blocks are open.
-/

namespace Spintax

namespace Lexeme

def isRun : Lexeme → Bool
  | .run _ _ => true
  | _ => false

/-- Whether the lexeme can stand where `d` blocks are open. -/
def Fits (d : Nat) : Lexeme → Prop
  | .bar => 0 < d
  | .run c cs => ∀ e ∈ c :: cs, ¬ Stops d e
  | _ => True

instance (d : Nat) : DecidablePred (Fits d)
  | .opening | .closing | .escape _ => .isTrue trivial
  | .bar => inferInstanceAs (Decidable (0 < d))
  | .run c cs => List.decidableBAll (fun e => ¬ Stops d e) (c :: cs)

/-- Not two runs, which would be one. -/
def Apart (x y : Lexeme) : Prop :=
  ¬ (x.isRun ∧ y.isRun)

instance : DecidableRel Apart :=
  fun x y => inferInstanceAs (Decidable (¬ (x.isRun ∧ y.isRun)))

theorem exists_of_isRun {x : Lexeme} (h : x.isRun) : ∃ c cs, x = .run c cs := by
  cases x with
  | run c cs => exact ⟨c, cs, rfl⟩
  | _ => cases h

/-- A lexeme in its place starts with a character that ends the run before it, unless it is a run
itself. -/
theorem stops_head {d : Nat} {y : Lexeme} (hy : y.Fits d) (hrun : ¬ y.isRun) {e : Char}
    {cs : List Char} (he : y.chars = e :: cs) : Stops d e := by
  cases y with
  | run c cs => exact absurd rfl hrun
  | opening => cases he; simp [Stops]
  | closing => cases he; simp [Stops]
  | bar =>
    cases he
    have hd : 0 < d := hy
    simp [Stops, hd]
  | escape c => cases he; simp [Stops]

end Lexeme

def Fitting : Nat → List Lexeme → Prop
  | _, [] => True
  | d, x :: xs => x.Fits d ∧ Fitting (x.depth d) xs

instance Fitting.decidable : (d : Nat) → (xs : List Lexeme) → Decidable (Fitting d xs)
  | _, [] => .isTrue trivial
  | d, x :: xs =>
    have := Fitting.decidable (x.depth d) xs
    inferInstanceAs (Decidable (x.Fits d ∧ Fitting (x.depth d) xs))

/-- The lexemes of some text, with `d` blocks open before it. -/
structure Cut (d : Nat) (xs : List Lexeme) : Prop where
  fits : Fitting d xs
  apart : xs.IsChain Lexeme.Apart

instance (d : Nat) (xs : List Lexeme) : Decidable (Cut d xs) :=
  decidable_of_iff (Fitting d xs ∧ xs.IsChain Lexeme.Apart)
    ⟨fun h => ⟨h.1, h.2⟩, fun h => ⟨h.fits, h.apart⟩⟩

@[simp] theorem depthAfter_append (d : Nat) (xs ys : List Lexeme) :
    depthAfter d (xs ++ ys) = depthAfter (depthAfter d xs) ys := by
  simp [depthAfter]

theorem fitting_append {d : Nat} {xs ys : List Lexeme} :
    Fitting d (xs ++ ys) ↔ Fitting d xs ∧ Fitting (depthAfter d xs) ys := by
  induction xs generalizing d with
  | nil => simp [Fitting]
  | cons x xs ih => simp [Fitting, ih, and_assoc]

theorem cut_append {d : Nat} {xs ys : List Lexeme} :
    Cut d (xs ++ ys) ↔ Cut d xs ∧ Cut (depthAfter d xs) ys ∧
      ∀ x ∈ xs.getLast?, ∀ y ∈ ys.head?, x.Apart y := by
  constructor
  · rintro ⟨hf, ha⟩
    obtain ⟨hfx, hfy⟩ := fitting_append.1 hf
    obtain ⟨hax, hay, hxy⟩ := List.isChain_append.1 ha
    exact ⟨⟨hfx, hax⟩, ⟨hfy, hay⟩, hxy⟩
  · rintro ⟨⟨hfx, hax⟩, ⟨hfy, hay⟩, hxy⟩
    exact ⟨fitting_append.2 ⟨hfx, hfy⟩, List.isChain_append.2 ⟨hax, hay, hxy⟩⟩

theorem cut_cons {d : Nat} {x : Lexeme} {xs : List Lexeme} (hx : x.Fits d)
    (hrun : ¬ x.isRun) (h : Cut (x.depth d) xs) : Cut d (x :: xs) := by
  refine ⟨⟨hx, h.fits⟩, ?_⟩
  cases xs with
  | nil => exact .singleton x
  | cons y ys => exact List.isChain_cons_cons.2 ⟨fun hxy => hrun hxy.1, h.apart⟩

/-- A run put in front of another one makes one run of both. -/
theorem cut_run {d : Nat} {c e : Char} {cs es : List Char} {xs : List Lexeme}
    (hc : (Lexeme.run c cs).Fits d) (h : Cut d (.run e es :: xs)) :
    Cut d (.run c (cs ++ e :: es) :: xs) := by
  obtain ⟨⟨he, hrest⟩, hapart⟩ := h
  refine ⟨⟨?_, hrest⟩, ?_⟩
  · intro a ha
    rw [← List.cons_append] at ha
    rcases List.mem_append.1 ha with ha | ha
    · exact hc a ha
    · exact he a ha
  · cases xs with
    | nil => exact .singleton _
    | cons y ys =>
      obtain ⟨hy, hys⟩ := List.isChain_cons_cons.1 hapart
      exact List.isChain_cons_cons.2 ⟨hy, hys⟩

/-! ## Cuts and texts -/

theorem reads_iff {d : Nat} {cs rest : List Char} {x : Lexeme} :
    Reads d cs x rest ↔
      cs = x.chars ++ rest ∧ x.Fits d ∧ (x.isRun → ∀ e, rest.head? = some e → Stops d e) := by
  constructor
  · intro h
    refine ⟨h.chars_append, ?_⟩
    cases h with
    | opening => simp [Lexeme.Fits, Lexeme.isRun]
    | closing => simp [Lexeme.Fits, Lexeme.isRun]
    | bar hd => simp [Lexeme.Fits, Lexeme.isRun, hd]
    | escape => simp [Lexeme.Fits, Lexeme.isRun]
    | run h hmax _ => exact ⟨h, fun _ => hmax⟩
  · rintro ⟨rfl, hfits, hmax⟩
    cases x with
    | opening => exact .opening
    | closing => exact .closing
    | bar => exact .bar hfits
    | escape c => exact .escape
    | run c cs => exact .run hfits (hmax rfl) rfl

theorem Lexed.cut {d : Nat} {cs tail : List Char} {xs : List Lexeme} (h : Lexed d cs xs tail) :
    Cut d xs := by
  induction h with
  | nil => exact ⟨trivial, .nil⟩
  | lone => exact ⟨trivial, .nil⟩
  | @cons d cs rest tail x xs hx hxs ih =>
    obtain ⟨-, hfits, hmax⟩ := reads_iff.1 hx
    refine ⟨⟨hfits, ih.fits⟩, ?_⟩
    cases hxs with
    | nil => exact .singleton _
    | lone => exact .singleton _
    | @cons _ _ rest' _ y ys hy hys =>
      refine List.isChain_cons_cons.2 ⟨?_, ih.apart⟩
      rintro ⟨hxr, hyr⟩
      obtain ⟨c, cs, rfl⟩ := Lexeme.exists_of_isRun hxr
      obtain ⟨e, es, rfl⟩ := Lexeme.exists_of_isRun hyr
      obtain ⟨hrest, hyfits, -⟩ := reads_iff.1 hy
      have hstop : Stops d e := hmax rfl e (by rw [hrest]; rfl)
      exact hyfits e (by simp) hstop

/-- Text behind lexemes is cut on its own, unless it goes on with the last of them. -/
theorem Cut.lexed_append {d : Nat} {xs ys : List Lexeme} {cs tail : List Char} (h : Cut d xs)
    (hcs : Lexed (depthAfter d xs) cs ys tail)
    (hseam : ∀ x ∈ xs.getLast?, x.isRun → ∀ e, cs.head? = some e → Stops (depthAfter d xs) e) :
    Lexed d (xs.flatMap Lexeme.chars ++ cs) (xs ++ ys) tail := by
  induction xs generalizing d with
  | nil => exact hcs
  | cons x xs ih =>
    obtain ⟨⟨hfits, hrest⟩, hapart⟩ := h
    rw [List.flatMap_cons, List.append_assoc]
    cases xs with
    | nil =>
      refine .cons (reads_iff.2 ⟨rfl, hfits, ?_⟩) hcs
      intro hx e he
      obtain ⟨c, cs, rfl⟩ := Lexeme.exists_of_isRun hx
      exact hseam _ rfl hx e he
    | cons y ys =>
      refine .cons (reads_iff.2 ⟨rfl, hfits, ?_⟩) (ih ⟨hrest, hapart.tail⟩ hcs hseam)
      intro hx e he
      obtain ⟨c, cs, rfl⟩ := Lexeme.exists_of_isRun hx
      have hy : ¬ y.isRun := fun hy => (List.isChain_cons_cons.1 hapart).1 ⟨hx, hy⟩
      obtain ⟨e', es, hchars⟩ := List.exists_cons_of_ne_nil y.chars_ne_nil
      rw [List.flatMap_cons, hchars] at he
      cases he
      exact Lexeme.stops_head hrest.1 hy hchars

theorem Cut.lexed {d : Nat} {xs : List Lexeme} (h : Cut d xs) :
    Lexed d (xs.flatMap Lexeme.chars) xs [] := by
  have hlexed := h.lexed_append .nil (by simp)
  rwa [List.append_nil, List.append_nil] at hlexed

theorem lexed_iff_cut {d : Nat} {cs : List Char} {xs : List Lexeme} :
    Lexed d cs xs [] ↔ cs = xs.flatMap Lexeme.chars ∧ Cut d xs := by
  constructor
  · intro h
    exact ⟨by simpa using h.chars_append, h.cut⟩
  · rintro ⟨rfl, h⟩
    exact h.lexed

namespace Sweep

theorem items_flatMap_chars {d : Nat} {xs : List Lexeme} (h : Cut d xs) :
    items (xs.flatMap Lexeme.chars) = xs.flatMap Lexeme.items := by
  have hl := h.lexed
  generalize xs.flatMap Lexeme.chars = cs at hl
  generalize htail : [] = tail at hl
  induction hl with
  | nil => rfl
  | lone => cases htail
  | cons hx hxs ih => rw [items_of_reads hx, ih hxs.cut htail, List.flatMap_cons]

end Sweep

/-! ## Levels -/

/-- One more token, where `k` blocks are open that it may close or divide. -/
def Token.Kind.level (k : Nat) : Kind → Option Nat
  | .opening => some (k + 1)
  | .closing => if k = 0 then none else some (k - 1)
  | .bar => if k = 0 then none else some k
  | .text => some k

def level (k : Nat) (w : List Token.Kind) : Option Nat :=
  w.foldlM Token.Kind.level k

@[simp] theorem level_nil (k : Nat) : level k [] = some k := rfl

theorem level_cons (k : Nat) (a : Token.Kind) (w : List Token.Kind) :
    level k (a :: w) = (a.level k).bind (level · w) := rfl

theorem level_append (k : Nat) (v w : List Token.Kind) :
    level k (v ++ w) = (level k v).bind (level · w) := by
  simp [level, List.foldlM_append]

theorem level_cons_eq_some {k j : Nat} {a : Token.Kind} {w : List Token.Kind} :
    level k (a :: w) = some j ↔ ∃ i, a.level k = some i ∧ level i w = some j := by
  rw [level_cons, Option.bind_eq_some_iff]

/-- Blocks further out make no difference to the depth. -/
theorem depth_of_level {k i : Nat} {x : Lexeme} (h : x.kind.level k = some i) (d : Nat) :
    x.depth (d + k) = d + i := by
  cases x with
  | opening =>
    cases h
    rfl
  | closing =>
    simp only [Lexeme.kind, Token.Kind.level] at h
    split at h
    · cases h
    · cases h
      show d + k - 1 = d + (k - 1)
      omega
  | bar =>
    simp only [Lexeme.kind, Token.Kind.level] at h
    split at h
    · cases h
    · cases h
      rfl
  | escape c =>
    cases h
    rfl
  | run c cs =>
    cases h
    rfl

theorem depthAfter_of_level {xs : List Lexeme} {k j : Nat}
    (h : level k (xs.map Lexeme.kind) = some j) (d : Nat) :
    depthAfter (d + k) xs = d + j := by
  induction xs generalizing k with
  | nil =>
    cases h
    rfl
  | cons x xs ih =>
    obtain ⟨i, hx, hxs⟩ := level_cons_eq_some.1 h
    rw [depthAfter_cons, depth_of_level hx, ih hxs]

theorem stops_mono {d e : Nat} (h : d ≤ e) {c : Char} (hc : Stops d c) : Stops e c := by
  rcases hc with hc | hc | hc | ⟨hc, hd⟩
  · exact .inl hc
  · exact .inr (.inl hc)
  · exact .inr (.inr (.inl hc))
  · exact .inr (.inr (.inr ⟨hc, by omega⟩))

/-- What stands with `d` more blocks around it can stand without them: a run then has fewer
characters to avoid. -/
theorem fitting_inside {xs : List Lexeme} {d k j : Nat}
    (h : level k (xs.map Lexeme.kind) = some j) (hf : Fitting (d + k) xs) : Fitting k xs := by
  induction xs generalizing k with
  | nil => trivial
  | cons x xs ih =>
    obtain ⟨i, hx, hxs⟩ := level_cons_eq_some.1 h
    obtain ⟨hfits, hrest⟩ := hf
    have hdepth : x.depth k = i := by
      have := depth_of_level hx 0
      rwa [Nat.zero_add, Nat.zero_add] at this
    rw [depth_of_level hx] at hrest
    refine ⟨?_, ?_⟩
    · cases x with
      | bar =>
        simp only [Lexeme.kind, Token.Kind.level] at hx
        split at hx
        · cases hx
        · show 0 < k
          omega
      | run c cs => exact fun e he hs => hfits e he (stops_mono (by omega) hs)
      | opening => trivial
      | closing => trivial
      | escape c => trivial
    · rw [hdepth]
      exact ih hxs hrest

end Spintax
