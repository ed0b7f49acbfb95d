import Mathlib.Data.List.DropRight

/-!
# The newest entries

A history that pushes each new entry at its end and then drops what exceeds a bound from
its front. However many entries were pushed, it holds the newest of them, in order.
-/
namespace DnslessHomelab.Newest
variable {A B : Type*}

theorem length_rtake (xs : List A) (n : ℕ) : (xs.rtake n).length = min n xs.length := by
  rw [List.rtake_eq_reverse_take_reverse, List.length_reverse, List.length_take,
    List.length_reverse]

theorem map_rtake (f : A → B) (xs : List A) (n : ℕ) :
    (xs.rtake n).map f = (xs.map f).rtake n := by
  rw [List.rtake, List.rtake, List.map_drop, List.length_map]

/-- The newest of the newest entries and later ones are the newest of all of them. -/
theorem rtake_append (xs ys : List A) (n : ℕ) :
    (xs.rtake n ++ ys).rtake n = (xs ++ ys).rtake n := by
  simp only [List.rtake_eq_reverse_take_reverse, List.reverse_append, List.reverse_reverse]
  rw [List.take_append, List.take_append, List.take_take]
  have hmin : min (n - ys.reverse.length) n = n - ys.reverse.length :=
    Nat.min_eq_left (Nat.sub_le _ _)
  rw [hmin]

section Fold
variable {S E : Type*} {step : S → E → S} {history : S → List B} {pushed? : E → Option B} {n : ℕ}

/-- A history to which each event pushes at most one entry, with what exceeds the bound
dropped, holds the newest of all entries pushed. -/
theorem foldl_newest
    (hstep : ∀ s e, history (step s e) =
      match pushed? e with
      | none => history s
      | some entry => (history s ++ [entry]).rtake n)
    {s : S} (hs : history s = []) (events : List E) :
    history (events.foldl step s) = (events.filterMap pushed?).rtake n := by
  induction events using List.reverseRecOn with
  | nil => rw [List.foldl_nil, hs, List.filterMap_nil, List.rtake_nil]
  | append_singleton events e ih =>
      rw [List.foldl_append, List.foldl_cons, List.foldl_nil, hstep, List.filterMap_append, ih]
      cases h : pushed? e with
      | none => simp [h]
      | some entry =>
          rw [List.filterMap_cons_some h]
          exact rtake_append _ [entry] n

end Fold

end DnslessHomelab.Newest
