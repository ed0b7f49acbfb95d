import DnslessHomelab.LineText

/-!
# First occurrence of a pattern

The unanchored search of a pattern in a list, from the left. The pattern may
overlap itself or its neighbours; nothing here assumes that it does not. A
separator absent from the pattern cuts the search: every occurrence lies on one
side of it, so a search over separated lines is a search line by line.
-/
namespace DnslessHomelab.SubstringSearch
variable {A : Type*} [DecidableEq A]

/-- Offset of the leftmost occurrence of `pat`. -/
def find (pat : List A) : List A → Option ℕ
  | [] => if pat = [] then some 0 else none
  | a :: text => if pat <+: a :: text then some 0 else (find pat text).map (· + 1)

@[simp] theorem find_nil_of_ne {pat : List A} (hp : pat ≠ []) : find pat [] = none := by
  simp [find, hp]

theorem find_zero {pat text : List A} (h : pat <+: text) : find pat text = some 0 := by
  cases text with
  | nil => simp [find, List.prefix_nil.mp h]
  | cons a text => simp [find, h]

/-- Both directions fix the offset: an occurrence there and none before it. -/
theorem find_eq_some_iff {pat text : List A} {n : ℕ} :
    find pat text = some n ↔
      n ≤ text.length ∧ pat <+: text.drop n ∧ ∀ m < n, ¬ pat <+: text.drop m := by
  induction text generalizing n with
  | nil =>
      simp only [find]
      split_ifs with hp
      · subst hp
        simp only [Option.some.injEq, List.length_nil, Nat.le_zero_eq, List.nil_prefix,
          not_true_eq_false, true_and]
        exact ⟨fun h => ⟨h.symm, fun m hm => by omega⟩, fun h => h.1.symm⟩
      · simp [hp]
  | cons a text ih =>
      simp only [find]
      split_ifs with hp
      · constructor
        · intro h
          cases h
          exact ⟨by simp, by simpa using hp, fun m hm => by omega⟩
        · intro ⟨_, _, hmin⟩
          rcases Nat.eq_zero_or_pos n with hn | hn
          · rw [hn]
          · exact (hmin 0 hn (by simpa using hp)).elim
      · cases n with
        | zero => simpa using hp
        | succ n =>
            simp only [Option.map_eq_some_iff, Nat.add_right_cancel_iff, exists_eq_right, ih,
              List.length_cons, Nat.add_le_add_iff_right, List.drop_succ_cons]
            refine and_congr_right fun _ => and_congr_right fun _ => ⟨?_, ?_⟩
            · intro hmin m hm
              cases m with
              | zero => simpa using hp
              | succ m => simpa using hmin m (by omega)
            · intro hmin m hm
              simpa using hmin (m + 1) (by omega)

theorem find_eq_none_iff {pat text : List A} : find pat text = none ↔ ¬ pat <:+: text := by
  induction text with
  | nil => simp [find]
  | cons a text ih =>
      simp only [find, List.infix_cons_iff, not_or]
      split_ifs with hp
      · simp [hp]
      · simp [hp, ih]

theorem find_bound {pat text : List A} {n : ℕ} (h : find pat text = some n) :
    n + pat.length ≤ text.length := by
  obtain ⟨hn, hp, _⟩ := find_eq_some_iff.mp h
  have hl := hp.length_le
  rw [List.length_drop] at hl
  omega

/-- The text up to the occurrence, the occurrence and the rest. -/
theorem find_split {pat text : List A} {n : ℕ} (h : find pat text = some n) :
    ∃ front rest, text = front ++ (pat ++ rest) ∧ front.length = n := by
  have hbound := find_bound h
  obtain ⟨_, ⟨rest, hrest⟩, _⟩ := find_eq_some_iff.mp h
  refine ⟨text.take n, rest, ?_, ?_⟩
  · rw [hrest, List.take_append_drop]
  · rw [List.length_take]
    omega

/-- An occurrence that is the leftmost one stays so when text is added behind it. -/
theorem find_append_left {pat s : List A} {n : ℕ} (h : find pat s = some n) (t : List A) :
    find pat (s ++ t) = some n := by
  have hbound := find_bound h
  obtain ⟨hn, hpat, hmin⟩ := find_eq_some_iff.mp h
  rw [find_eq_some_iff]
  refine ⟨?_, ?_, ?_⟩
  · rw [List.length_append]
    omega
  · rw [List.drop_append_of_le_length hn]
    exact hpat.trans (List.prefix_append _ _)
  · intro m hm hearly
    apply hmin m hm
    rw [List.drop_append_of_le_length (by omega)] at hearly
    apply List.prefix_of_prefix_length_le hearly (List.prefix_append _ _)
    rw [List.length_drop]
    omega

/-- It is found in any front part of the text that holds it whole. -/
theorem find_of_isPrefix {pat s text : List A} {n : ℕ} (h : find pat text = some n)
    (hs : s <+: text) (hlen : n + pat.length ≤ s.length) : find pat s = some n := by
  obtain ⟨rest, rfl⟩ := hs
  cases hfound : find pat s with
  | some m =>
      have hsame := find_append_left hfound rest
      rw [h] at hsame
      exact hsame.symm
  | none =>
      have hocc := (find_eq_some_iff.mp h).2.1
      rw [List.drop_append_of_le_length (by omega)] at hocc
      have hwhole : pat <+: s.drop n := by
        apply List.prefix_of_prefix_length_le hocc (List.prefix_append _ _)
        rw [List.length_drop]
        omega
      exact absurd (hwhole.isInfix.trans (List.drop_suffix n s).isInfix)
        (find_eq_none_iff.mp hfound)

omit [DecidableEq A] in
/-- An occurrence that starts before a mark at least as long does not reach past it. -/
theorem prefix_drop_shared {pat front mark : List A} (hlen : pat.length ≤ mark.length) {m : ℕ}
    (hm : m ≤ front.length) (rest : List A) :
    pat <+: (front ++ (mark ++ rest)).drop m ↔ pat <+: (front ++ mark).drop m := by
  rw [← List.append_assoc, List.drop_append_of_le_length (by rw [List.length_append]; omega)]
  constructor
  · intro h
    apply List.prefix_of_prefix_length_le h (List.prefix_append _ _)
    rw [List.length_drop, List.length_append]
    omega
  · exact fun h => h.trans (List.prefix_append _ _)

/-- What follows the mark does not matter to a search that ends before it or at it. -/
theorem find_shared {pat front mark rest : List A} (hlen : pat.length ≤ mark.length) {n : ℕ}
    (hn : n ≤ front.length) (h : find pat (front ++ (mark ++ rest)) = some n) (more : List A) :
    find pat (front ++ (mark ++ more)) = some n := by
  obtain ⟨_, hpat, hmin⟩ := find_eq_some_iff.mp h
  rw [find_eq_some_iff]
  refine ⟨?_, ?_, ?_⟩
  · rw [List.length_append]
    omega
  · rw [prefix_drop_shared hlen hn] at hpat ⊢
    exact hpat
  · intro m hm hearly
    rw [prefix_drop_shared hlen (by omega)] at hearly
    apply hmin m hm
    rw [prefix_drop_shared hlen (by omega)]
    exact hearly

omit [DecidableEq A] in
/-- A separator absent from the pattern stops every occurrence that starts before it. -/
theorem prefix_append_sep {sep : A} {pat : List A} (hs : sep ∉ pat) (line rest : List A) :
    pat <+: line ++ sep :: rest ↔ pat <+: line := by
  induction line generalizing pat with
  | nil =>
      cases pat with
      | nil => simp
      | cons p pat =>
          simp only [List.nil_append, List.cons_prefix_cons, List.prefix_nil, reduceCtorEq,
            iff_false, not_and]
          intro heq
          subst heq
          exact (hs (by simp)).elim
  | cons a line ih =>
      cases pat with
      | nil => simp
      | cons p pat =>
          simp only [List.cons_append, List.cons_prefix_cons]
          exact and_congr_right fun _ => ih (fun h => hs (by simp [h]))

/-- Searching separated text is searching the first piece and then the rest. The
piece `line` may contain further separators itself. -/
theorem find_append_sep {sep : A} {pat : List A} (hp : pat ≠ []) (hs : sep ∉ pat)
    (line rest : List A) :
    find pat (line ++ sep :: rest) =
      (find pat line).or ((find pat rest).map (· + (line.length + 1))) := by
  induction line with
  | nil =>
      have hn : ¬ pat <+: sep :: rest := by
        intro h
        exact hp (List.prefix_nil.mp ((prefix_append_sep hs [] rest).mp h))
      simp [find, hn, hp]
  | cons a line ih =>
      have hpre := prefix_append_sep hs (a :: line) rest
      simp only [List.cons_append] at hpre ⊢
      by_cases h : pat <+: a :: line
      · simp [find, h, hpre.mpr h]
      · have h' : ¬ pat <+: a :: (line ++ sep :: rest) := fun hc => h (hpre.mp hc)
        simp only [find, h, h', if_false, ih, Option.map_or, Option.map_map]
        rfl

/-- Terminated text without an occurrence is skipped as a whole. -/
theorem find_skip {sep : A} {pat : List A} (hp : pat ≠ []) (hs : sep ∉ pat) {head : List A}
    (ht : LineText.Terminated sep head) (hh : find pat head = none) (rest : List A) :
    find pat (head ++ rest) = (find pat rest).map (· + head.length) := by
  rcases ht with rfl | ⟨line, rfl⟩
  · simp
  · rw [find_append_sep hp hs, find_nil_of_ne hp, Option.map_none, Option.or_none] at hh
    rw [List.append_assoc, List.singleton_append, find_append_sep hp hs, hh, Option.none_or]
    simp

theorem find_append_eq_none {sep : A} {pat : List A} (hp : pat ≠ []) (hs : sep ∉ pat)
    {head rest : List A} (ht : LineText.Terminated sep head) (hh : find pat head = none)
    (hr : find pat rest = none) : find pat (head ++ rest) = none := by
  rw [find_skip hp hs ht hh, hr, Option.map_none]

/-- A missing last separator changes nothing. -/
theorem find_closed {sep : A} {pat : List A} (hp : pat ≠ []) (hs : sep ∉ pat) (text : List A) :
    find pat (LineText.closed sep text) = find pat text := by
  rcases LineText.closed_cases sep text with ⟨hc, _⟩ | ⟨hc, _⟩
  · rw [hc]
  · rw [hc, find_append_sep hp hs, find_nil_of_ne hp, Option.map_none, Option.or_none]

theorem find_unlines_eq_none {sep : A} {pat : List A} (hp : pat ≠ []) (hs : sep ∉ pat)
    {ls : List (List A)} (hw : ∀ l ∈ ls, ¬ pat <:+: l) :
    find pat (LineText.unlines sep ls) = none := by
  induction ls with
  | nil => simp [hp]
  | cons l ls ih =>
      rw [LineText.unlines_cons, find_append_sep hp hs, find_eq_none_iff.mpr (hw l (by simp)),
        ih fun k hk => hw k (by simp [hk])]
      rfl

/-- The search stops at the first line that is the pattern. -/
theorem find_unlines_line {sep : A} {pat : List A} (hp : pat ≠ []) (hs : sep ∉ pat)
    {front : List (List A)} (hw : ∀ l ∈ front, ¬ pat <:+: l) (back : List (List A)) :
    find pat (LineText.unlines sep (front ++ pat :: back)) =
      some (LineText.unlines sep front).length := by
  rw [LineText.unlines_append, LineText.unlines_cons,
    find_skip hp hs (LineText.terminated_unlines front) (find_unlines_eq_none hp hs hw),
    find_zero (List.prefix_append _ _)]
  simp

/-- When the first entry of the pattern occurs only at the front of the text, the
search is a prefix test. -/
theorem find_of_head_not_mem {a : A} {pat text : List A} (h : a ∉ text) (b : A) :
    find (a :: pat) (b :: text) = if a :: pat <+: b :: text then some 0 else none := by
  have ht : find (a :: pat) text = none := by
    rw [find_eq_none_iff]
    exact fun hi => h (hi.subset (by simp))
  simp [find, ht]

/-- Text without the first entry of the pattern is skipped. -/
theorem find_append_of_head_not_mem {a : A} {pat front : List A} (h : a ∉ front)
    (text : List A) :
    find (a :: pat) (front ++ text) = (find (a :: pat) text).map (· + front.length) := by
  induction front with
  | nil => simp
  | cons b front ih =>
      have hne : a ≠ b := fun heq => h (heq ▸ List.mem_cons_self ..)
      have hnot : ¬ a :: pat <+: b :: (front ++ text) :=
        fun hpre => hne (List.cons_prefix_cons.mp hpre).1
      rw [List.cons_append, find, if_neg hnot, ih fun hm => h (List.mem_cons_of_mem _ hm),
        Option.map_map]
      rfl

end DnslessHomelab.SubstringSearch
