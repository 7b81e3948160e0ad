/-!
# Spintax.Session.Names

Things stored under names. Storing under a name that is taken replaces the older thing.

* `Names.get?`, `Names.put`, and what the one says of the other.
-/

namespace Spintax.Session

/-- Named things. The first entry of a name counts. -/
structure Names (α : Type) where
  entries : List (String × α) := []

namespace Names

variable {α : Type}

def get? (names : Names α) (name : String) : Option α :=
  names.entries.lookup name

def put (names : Names α) (name : String) (a : α) : Names α :=
  ⟨(name, a) :: names.entries.filter (·.1 ≠ name)⟩

@[simp] theorem get?_put_self (names : Names α) (name : String) (a : α) :
    (names.put name a).get? name = some a := by
  simp [get?, put]

theorem lookup_filter_ne {name other : String} (h : other ≠ name) (es : List (String × α)) :
    (es.filter (·.1 ≠ name)).lookup other = es.lookup other := by
  induction es with
  | nil => rfl
  | cons e es ih =>
    obtain ⟨n, a⟩ := e
    by_cases hn : n = name
    · have h' : (other == n) = false := by simpa [hn] using h
      rw [List.filter_cons_of_neg (by simp [hn]), ih, List.lookup_cons, h']
    · rw [List.filter_cons_of_pos (by simp [hn]), List.lookup_cons, List.lookup_cons, ih]

theorem get?_put_of_ne {name other : String} (h : other ≠ name) (names : Names α) (a : α) :
    (names.put name a).get? other = names.get? other := by
  have h' : (other == name) = false := by simpa using h
  simp only [get?, put, List.lookup_cons, h']
  exact lookup_filter_ne h names.entries

end Names
end Spintax.Session
