import Spintax.Proofs.ParserSteps

/-!
# Spintax.Proofs.ParserComplete

Every tree of the shape of the grammar is read from any tokens it is written with, as long as the
limit leaves room for its blocks. Places and the values of braces and bars do not matter.

* `State.ReadsPart`, `State.ReadsPattern`: what reading a tree adds to a parser at work.
* `reads_tree`: both, by induction on the tree.
-/

namespace Spintax
namespace Parser

open Spintax.Tree

namespace State

/-- Tokens that the tree is written with become one more part. -/
def ReadsPart (limit n : Nat) (t : Tree) : Prop :=
  ∀ (ts : List Token) (s : State), ts.map Token.symbol = t.symbols → s.depth + n = limit →
    ∃ t' : Tree, t'.same t ∧
      s.run limit ts = .ok { s with position := s.position + ts.length, parts := t' :: s.parts }

/-- Tokens that the tree is written with become the parts of the pattern in progress. -/
def ReadsPattern (limit n : Nat) (t : Tree) : Prop :=
  ∀ (ts : List Token) (s : State), ts.map Token.symbol = t.symbols → s.depth + n = limit →
    s.parts = [] →
    ∃ (newest : Tree) (older : List Tree), (patternOf newest older).same t ∧
      s.run limit ts =
        .ok { s with position := s.position + ts.length, parts := newest :: older }

variable {limit n : Nat}

theorem run_append_of_ok {s s' : State} {ts us : List Token} (h : s.run limit ts = .ok s') :
    s.run limit (ts ++ us) = s'.run limit us := by
  rw [run_append, h]

theorem run_parts {list : List Tree} (hr : ∀ t ∈ list, ReadsPart limit n t) (ts : List Token)
    (s : State) (hts : ts.map Token.symbol = symbolsAll list) (hd : s.depth + n = limit) :
    ∃ list' : List Tree, sameAll list' list ∧
      s.run limit ts =
        .ok { s with position := s.position + ts.length, parts := list'.reverse ++ s.parts } := by
  induction list generalizing ts s with
  | nil =>
    have : ts = [] := by simpa [symbolsAll] using hts
    subst this
    exact ⟨[], rfl, rfl⟩
  | cons t list ih =>
    obtain ⟨us, vs, rfl, hu, hv⟩ := List.map_eq_append_iff.1 hts
    obtain ⟨t', hs, hrun⟩ := hr t (by simp) us s hu hd
    obtain ⟨list', hs', hrun'⟩ := ih (fun u hm => hr u (by simp [hm])) vs
      { s with position := s.position + us.length, parts := t' :: s.parts } hv hd
    refine ⟨t' :: list', by simp [sameAll, hs, hs'], ?_⟩
    rw [run_append_of_ok hrun, hrun']
    simp [Nat.add_assoc]

theorem same_patternOf {newest first : Tree} {older rest : List Tree} {l : Location}
    (h : sameAll (newest :: older).reverse (first :: rest)) :
    (patternOf newest older).same (.pattern first rest l) := by
  cases hr : (newest :: older).reverse with
  | nil => simp at hr
  | cons x xs =>
    rw [hr] at h
    rw [patternOf_eq hr]
    exact h

/-- The options after the first. Those already there stay in front. -/
theorem run_options {rest : List Tree} (hr : ∀ t ∈ rest, ReadsPattern limit n t)
    (ts : List Token) (position depth : Nat) (f : Frame) (frames : List Frame) (newest : Tree)
    (older : List Tree) (hts : ts.map Token.symbol = symbolsBarred rest)
    (hd : depth + n = limit) :
    ∃ (rest' options : List Tree) (newest' : Tree) (older' : List Tree), sameAll rest' rest ∧
      (patternOf newest' older' :: options).reverse =
        (patternOf newest older :: f.options).reverse ++ rest' ∧
      State.run limit ⟨position, depth, f :: frames, newest :: older⟩ ts =
        .ok ⟨position + ts.length, depth, { f with options := options } :: frames,
          newest' :: older'⟩ := by
  induction rest generalizing ts position f newest older with
  | nil =>
    have : ts = [] := by simpa [symbolsBarred] using hts
    subst this
    exact ⟨[], f.options, newest, older, rfl, by simp, rfl⟩
  | cons t rest ih =>
    obtain ⟨b, us, rfl, hb, hu⟩ := List.map_eq_cons_iff.1 hts
    obtain ⟨vs, ws, rfl, hv, hw⟩ := List.map_eq_append_iff.1 hu
    have hk : b.kind = .bar := by rw [← Token.kind_symbol, hb]; rfl
    let f' : Frame := { f with options := patternOf newest older :: f.options }
    obtain ⟨newest₁, older₁, hs₁, hrun₁⟩ :=
      hr t (by simp) vs ⟨position + 1, depth, f' :: frames, []⟩ hv hd rfl
    obtain ⟨rest', options, newest', older', hs, hopt, hrun⟩ :=
      ih (fun u hm => hr u (by simp [hm])) ws (position + 1 + vs.length) f' newest₁ older₁ hw
    refine ⟨patternOf newest₁ older₁ :: rest', options, newest', older',
      by simp [sameAll, hs, hs₁], ?_, ?_⟩
    · rw [hopt]
      simp [f']
    · refine run_cons_ok_iff.2 ⟨_, .bar hk, ?_⟩
      rw [run_append_of_ok hrun₁, hrun]
      simp only [List.length_cons, List.length_append]
      congr 2
      omega

/-- A tree of the shape of the grammar is read from any tokens it is written with. -/
theorem reads_tree (t : Tree) :
    (∀ n, t.IsPattern n → ReadsPattern limit n t) ∧ ∀ n, t.IsPart n → ReadsPart limit n t := by
  refine shape_induct (P := ReadsPattern limit) (Q := ReadsPart limit) ?_ ?_ ?_ t
  · intro n content l ts s hts _
    obtain ⟨t, rfl⟩ := List.length_eq_one_iff.1 (by simpa [symbols] using congrArg List.length hts)
    have hsym : t.symbol = .text content := by simpa [symbols] using hts
    have hk : t.kind = .text := by rw [← Token.kind_symbol, hsym]; rfl
    have hv : t.value = content := by simpa [Token.symbol, hk] using hsym
    refine ⟨.text t.value t.location, by simp [same, hv], ?_⟩
    exact run_cons_ok_iff.2 ⟨_, .text hk, rfl⟩
  · intro n first rest l hall ts s hts hd hp
    obtain ⟨list, hs, hrun⟩ := run_parts hall ts s hts hd
    cases hl : list.reverse with
    | nil =>
      rw [List.reverse_eq_nil_iff] at hl
      simp [hl, sameAll] at hs
    | cons newest older =>
      refine ⟨newest, older, same_patternOf ?_, ?_⟩
      · rw [← hl, List.reverse_reverse]
        exact hs
      · rw [hrun, hl, hp, List.append_nil]
  · intro n first rest l hf hopts ts s hts hd
    -- the tokens are a brace, the first option, the other options with their bars, and a brace
    obtain ⟨o, us, rfl, ho, hu⟩ := List.map_eq_cons_iff.1 hts
    obtain ⟨vs, cs, rfl, hv, hc⟩ := List.map_eq_append_iff.1 hu
    obtain ⟨ws, xs, rfl, hw, hx⟩ := List.map_eq_append_iff.1 hv
    obtain ⟨c, rfl⟩ := List.length_eq_one_iff.1 (by simpa using congrArg List.length hc)
    have hko : o.kind = .opening := by rw [← Token.kind_symbol, ho]; rfl
    have hkc : c.kind = .closing := by
      rw [← Token.kind_symbol, show c.symbol = .closing by simpa using hc]
      rfl
    let f : Frame := ⟨s.position, o, s.parts, []⟩
    have hd' : s.depth + 1 + n = limit := by omega
    obtain ⟨newest, older, hs₁, hrun₁⟩ := hf ws
      ⟨s.position + 1, s.depth + 1, f :: s.frames, []⟩ hw hd' rfl
    obtain ⟨rest', options, newest', older', hs, hopt, hrun⟩ :=
      run_options hopts xs (s.position + 1 + ws.length) (s.depth + 1) f s.frames newest older
        hx hd'
    have hopt' : (patternOf newest' older' :: options).reverse =
        patternOf newest older :: rest' := by simpa [f] using hopt
    refine ⟨.block (patternOf newest older) rest' (o.location.spanTo c.location),
      by simp [same, hs₁, hs], run_cons_ok_iff.2 ⟨_, .opening hko (by omega), ?_⟩⟩
    rw [List.append_assoc, run_append_of_ok hrun₁, run_append_of_ok hrun]
    refine run_cons_ok_iff.2 ⟨_, .closing hkc, ?_⟩
    rw [blockOf_eq hopt', run_nil]
    simp only [f, List.length_cons, List.length_nil, List.length_append, Nat.add_sub_cancel]
    congr 2
    omega

end State
end Parser
end Spintax
