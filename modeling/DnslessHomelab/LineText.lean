import Mathlib.Data.List.Basic
import Mathlib.Data.List.Infix
import Mathlib.Data.List.TakeWhile

/-!
# Separated lines

A list cut at a separator: the complete lines, each ended by a separator, and
the unterminated remainder. `lines` counts a nonempty remainder as a last line
and keeps no empty line after a final separator; `closed` supplies the separator
that an unterminated text lacks.
-/
namespace DnslessHomelab.LineText
variable {A : Type*} {sep : A}

/-- Every line followed by one separator. -/
def unlines (sep : A) (ls : List (List A)) : List A := ls.flatMap (· ++ [sep])

@[simp] theorem unlines_nil : unlines sep [] = [] := rfl

@[simp] theorem unlines_cons (l : List A) (ls : List (List A)) :
    unlines sep (l :: ls) = l ++ sep :: unlines sep ls := by
  simp [unlines]

@[simp] theorem unlines_append (ls ks : List (List A)) :
    unlines sep (ls ++ ks) = unlines sep ls ++ unlines sep ks := by
  simp [unlines]

/-- Nothing follows the last separator. -/
def Terminated (sep : A) (text : List A) : Prop := text = [] ∨ ∃ head, text = head ++ [sep]

theorem Terminated.append {s t : List A} (hs : Terminated sep s) (ht : Terminated sep t) :
    Terminated sep (s ++ t) := by
  rcases ht with rfl | ⟨head, rfl⟩
  · simpa using hs
  · exact .inr ⟨s ++ head, by simp⟩

theorem terminated_unlines (ls : List (List A)) : Terminated sep (unlines sep ls) := by
  rcases List.eq_nil_or_concat' ls with rfl | ⟨ks, l, rfl⟩
  · exact .inl rfl
  · exact .inr ⟨unlines sep ks ++ l, by simp⟩

/-- A prefix of joined lines stops inside one line, or between two. -/
theorem prefix_unlines {p : List A} {ls : List (List A)} (h : p <+: unlines sep ls) :
    ∃ front back r, ls = front ++ back ∧ p = unlines sep front ++ r ∧
      (r = [] ∨ ∃ l tail, back = l :: tail ∧ r <+: l) := by
  induction ls generalizing p with
  | nil =>
      rw [unlines_nil, List.prefix_nil] at h
      exact ⟨[], [], [], rfl, by simpa using h, .inl rfl⟩
  | cons l ls ih =>
      rw [unlines_cons, ← List.singleton_append, ← List.append_assoc] at h
      rcases List.prefix_or_prefix_of_prefix h (List.prefix_append _ _) with hp | hp
      · rcases List.prefix_concat_iff.mp hp with rfl | hl
        · exact ⟨[l], ls, [], rfl, by simp, .inl rfl⟩
        · exact ⟨[], l :: ls, p, rfl, rfl, .inr ⟨l, ls, rfl, hl⟩⟩
      · obtain ⟨q, rfl⟩ := hp
        rw [List.prefix_append_right_inj] at h
        obtain ⟨front, back, r, rfl, rfl, hr⟩ := ih h
        exact ⟨l :: front, back, r, rfl, by simp, hr⟩

/-- A prefix without a separator stays in the first line. -/
theorem prefix_line {p l : List A} {ls : List (List A)} (h : p <+: unlines sep (l :: ls))
    (hp : sep ∉ p) : p <+: l := by
  rw [unlines_cons, ← List.singleton_append, ← List.append_assoc] at h
  rcases List.prefix_or_prefix_of_prefix h (List.prefix_append _ _) with hline | hline
  · rcases List.prefix_concat_iff.mp hline with rfl | hl
    · exact absurd (List.mem_append_right l (List.mem_singleton.mpr rfl)) hp
    · exact hl
  · have hmem : sep ∈ l ++ [sep] := List.mem_append_right l (List.mem_singleton.mpr rfl)
    exact absurd (hline.subset hmem) hp

variable [DecidableEq A]

/-- The complete lines and the unterminated remainder. -/
def cut (sep : A) : List A → List (List A) × List A
  | [] => ([], [])
  | a :: text =>
      let r := cut sep text
      if a = sep then ([] :: r.1, r.2) else
        match r.1 with
        | [] => ([], a :: r.2)
        | l :: ls => ((a :: l) :: ls, r.2)

theorem cut_line {l : List A} (hl : sep ∉ l) (text : List A) :
    cut sep (l ++ sep :: text) = (l :: (cut sep text).1, (cut sep text).2) := by
  induction l with
  | nil => simp [cut]
  | cons a l ih =>
      have ha : a ≠ sep := fun h => hl (by simp [h])
      simp [cut, ih (fun h => hl (by simp [h])), ha]

/-- The first separator determines what stands before and after it. -/
theorem append_sep_inj {xs ys s t : List A} (hx : sep ∉ xs) (hy : sep ∉ ys)
    (h : xs ++ sep :: s = ys ++ sep :: t) : xs = ys ∧ s = t := by
  have hc := congrArg (cut sep) h
  rw [cut_line hx, cut_line hy] at hc
  simp only [Prod.mk.injEq, List.cons.injEq] at hc
  obtain rfl := hc.1.1
  exact ⟨rfl, by simpa using h⟩

theorem cut_remainder {r : List A} (hr : sep ∉ r) : cut sep r = ([], r) := by
  induction r with
  | nil => rfl
  | cons a r ih =>
      have ha : a ≠ sep := fun h => hr (by simp [h])
      simp [cut, ih (fun h => hr (by simp [h])), ha]

theorem cut_unlines {ls : List (List A)} (hls : ∀ l ∈ ls, sep ∉ l) (text : List A) :
    cut sep (unlines sep ls ++ text) = (ls ++ (cut sep text).1, (cut sep text).2) := by
  induction ls with
  | nil => simp
  | cons l ls ih =>
      rw [unlines_cons, List.append_assoc, List.cons_append, cut_line (hls l (by simp)),
        ih (fun k hk => hls k (by simp [hk]))]
      rfl

/-- The pieces hold no separator and rebuild the text. -/
theorem cut_spec (sep : A) (text : List A) :
    unlines sep (cut sep text).1 ++ (cut sep text).2 = text ∧
      (∀ l ∈ (cut sep text).1, sep ∉ l) ∧ sep ∉ (cut sep text).2 := by
  induction text with
  | nil => simp [cut]
  | cons a text ih =>
      obtain ⟨hjoin, hlines, hrest⟩ := ih
      by_cases ha : a = sep
      · refine ⟨?_, ?_, ?_⟩
        · simp [cut, ha, hjoin]
        · simpa [cut, ha] using hlines
        · simpa [cut, ha] using hrest
      · cases hr : (cut sep text).1 with
        | nil =>
            rw [hr] at hjoin
            refine ⟨?_, ?_, ?_⟩
            · simpa [cut, ha, hr] using hjoin
            · simp [cut, ha, hr]
            · simpa [cut, ha, hr, Ne.symm ha] using hrest
        | cons l ls =>
            rw [hr] at hjoin hlines
            refine ⟨?_, ?_, ?_⟩
            · simpa [cut, ha, hr] using hjoin
            · simpa [cut, ha, hr, Ne.symm ha] using hlines
            · simpa [cut, ha, hr] using hrest

/-- The first complete line of a prefix is the first line. -/
theorem cut_of_prefix_unlines {p l : List A} {ls ks : List (List A)} (hp : p <+: unlines sep ls)
    (hls : ∀ l ∈ ls, sep ∉ l) (h : (cut sep p).1 = l :: ks) : ∃ tail, ls = l :: tail := by
  obtain ⟨front, back, r, rfl, rfl, hr⟩ := prefix_unlines hp
  have hsep : sep ∉ r := by
    cases hr with
    | inl hr => simp [hr]
    | inr hr =>
        obtain ⟨b, tail, rfl, hb⟩ := hr
        exact fun hm => hls b (by simp) (hb.subset hm)
  rw [cut_unlines (fun k hk => hls k (List.mem_append_left _ hk)), cut_remainder hsep] at h
  have hfront : front = l :: ks := by simpa using h
  exact ⟨ks ++ back, by rw [hfront, List.cons_append]⟩

/-- What stands in front of the first separator. -/
theorem takeWhile_line {line : List A} (h : sep ∉ line) (rest : List A) :
    (line ++ sep :: rest).takeWhile (· ≠ sep) = line := by
  have hline : ∀ a ∈ line, decide (a ≠ sep) = true := by
    intro a ha
    exact decide_eq_true fun heq => h (heq ▸ ha)
  rw [List.takeWhile_append_of_pos hline]
  simp

theorem exists_line {text : List A} (h : sep ∈ text) :
    ∃ rest, text = text.takeWhile (· ≠ sep) ++ sep :: rest ∧
      sep ∉ text.takeWhile (· ≠ sep) := by
  obtain ⟨line, rest, rfl, hline⟩ := List.eq_append_cons_of_mem h
  rw [takeWhile_line hline]
  exact ⟨rest, rfl, hline⟩

/-- What follows a separator does not matter to what stands in front of the first one. -/
theorem takeWhile_append_of_mem {s : List A} (h : sep ∈ s) (t : List A) :
    (s ++ t).takeWhile (· ≠ sep) = s.takeWhile (· ≠ sep) := by
  obtain ⟨line, rest, rfl, hline⟩ := List.eq_append_cons_of_mem h
  rw [takeWhile_line hline, List.append_assoc, List.cons_append, takeWhile_line hline]

/-- A nonempty remainder is a last line. -/
def lines (sep : A) (text : List A) : List (List A) :=
  (cut sep text).1 ++ if (cut sep text).2 = [] then [] else [(cut sep text).2]

theorem sep_not_mem_of_mem_lines {text l : List A} (h : l ∈ lines sep text) : sep ∉ l := by
  obtain ⟨_, hlines, hrest⟩ := cut_spec sep text
  rcases List.mem_append.mp h with h | h
  · exact hlines l h
  · split_ifs at h
    · simp at h
    · rw [List.mem_singleton.mp h]
      exact hrest

@[simp] theorem lines_unlines {ls : List (List A)} (hls : ∀ l ∈ ls, sep ∉ l) :
    lines sep (unlines sep ls) = ls := by
  have h := cut_unlines hls []
  rw [List.append_nil] at h
  simp [lines, h, cut]

/-- The text with its last line terminated. -/
def closed (sep : A) (text : List A) : List A :=
  if text = [] ∨ text.getLast? = some sep then text else text ++ [sep]

theorem closed_of_terminated {text : List A} (h : Terminated sep text) :
    closed sep text = text := by
  rcases h with rfl | ⟨head, rfl⟩ <;> simp [closed]

theorem closed_of_getLast_ne {text : List A} (hne : text ≠ []) (h : text.getLast? ≠ some sep) :
    closed sep text = text ++ [sep] := by
  simp [closed, hne, h]

/-- Only an unterminated last piece is closed. -/
theorem closed_append {t : List A} (hne : t ≠ []) (h : t.getLast? ≠ some sep) (s : List A) :
    closed sep (s ++ t) = s ++ (t ++ [sep]) := by
  rw [closed_of_getLast_ne (by simp [hne]) (by rwa [List.getLast?_append_of_ne_nil _ hne]),
    List.append_assoc]

/-- Closing decides between nothing to do and one missing separator. -/
theorem closed_cases (sep : A) (text : List A) :
    (closed sep text = text ∧ Terminated sep text) ∨
      (closed sep text = text ++ [sep] ∧ text ≠ [] ∧ text.getLast? ≠ some sep) := by
  by_cases h : text = [] ∨ text.getLast? = some sep
  · refine .inl ⟨by simp [closed, h], h.imp_right fun hl => ?_⟩
    obtain ⟨head, rfl⟩ := List.getLast?_eq_some_iff.mp hl
    exact ⟨head, rfl⟩
  · push Not at h
    exact .inr ⟨closed_of_getLast_ne h.1 h.2, h⟩

theorem terminated_closed (sep : A) (text : List A) : Terminated sep (closed sep text) := by
  rcases closed_cases sep text with ⟨hc, ht⟩ | ⟨hc, _⟩
  · rwa [hc]
  · exact .inr ⟨text, hc⟩

theorem unlines_lines (text : List A) : unlines sep (lines sep text) = closed sep text := by
  obtain ⟨hjoin, _, hrest⟩ := cut_spec sep text
  unfold lines
  split_ifs with hr
  · rw [hr, List.append_nil] at hjoin
    rw [List.append_nil, hjoin]
    have ht : Terminated sep text := hjoin ▸ terminated_unlines _
    exact (closed_of_terminated ht).symm
  · have hne : text ≠ [] := by
      intro h
      simp [h, cut] at hr
    have hlast : text.getLast? ≠ some sep := by
      rw [← hjoin, List.getLast?_append_of_ne_nil _ hr]
      exact fun h => hrest (List.mem_of_getLast? h)
    rw [closed_of_getLast_ne hne hlast]
    calc
      unlines sep ((cut sep text).1 ++ [(cut sep text).2]) =
          unlines sep (cut sep text).1 ++ (cut sep text).2 ++ [sep] := by simp
      _ = text ++ [sep] := by rw [hjoin]

@[simp] theorem lines_closed (text : List A) : lines sep (closed sep text) = lines sep text := by
  rw [← unlines_lines, lines_unlines fun l => sep_not_mem_of_mem_lines]

/-- Whole lines in front of a text are the first of its lines. -/
theorem lines_unlines_append {ls : List (List A)} (hls : ∀ l ∈ ls, sep ∉ l) (text : List A) :
    lines sep (unlines sep ls ++ text) = ls ++ lines sep text := by
  rw [lines, lines, cut_unlines hls, List.append_assoc]

theorem lines_append {s : List A} (hs : Terminated sep s) (t : List A) :
    lines sep (s ++ t) = lines sep s ++ lines sep t := by
  have hunlines : unlines sep (lines sep s) = closed sep s := unlines_lines s
  rw [closed_of_terminated hs] at hunlines
  conv_lhs => rw [← hunlines]
  exact lines_unlines_append (fun l => sep_not_mem_of_mem_lines) t

/-! ### Pieces between separators -/

def pieces (sep : A) (text : List A) : List (List A) := (cut sep text).1 ++ [(cut sep text).2]

def firstPiece (sep : A) (text : List A) : List A := text.takeWhile (· ≠ sep)

def laterPieces (sep : A) (text : List A) : List (List A) := (pieces sep text).tail

theorem pieces_eq_singleton {text : List A} (h : sep ∉ text) : pieces sep text = [text] := by
  rw [pieces, cut_remainder h]
  rfl

theorem pieces_line {l : List A} (hl : sep ∉ l) (text : List A) :
    pieces sep (l ++ sep :: text) = l :: pieces sep text := by
  rw [pieces, cut_line hl]
  rfl

theorem pieces_unlines_append {ls : List (List A)} (hls : ∀ l ∈ ls, sep ∉ l) (text : List A) :
    pieces sep (unlines sep ls ++ text) = ls ++ pieces sep text := by
  rw [pieces, cut_unlines hls, List.append_assoc, pieces]

theorem pieces_eq_cons (sep : A) (text : List A) :
    pieces sep text = firstPiece sep text :: laterPieces sep text := by
  unfold laterPieces
  by_cases h : sep ∈ text
  · obtain ⟨rest, htext, hline⟩ := exists_line h
    have hpieces := pieces_line hline rest
    rw [← htext] at hpieces
    rw [hpieces]
    rfl
  · have hall : firstPiece sep text = text := by
      rw [firstPiece, List.takeWhile_eq_self_iff]
      intro a ha
      exact decide_eq_true fun heq => h (heq ▸ ha)
    rw [pieces_eq_singleton h, hall]
    rfl

/-- What stands in front without a separator belongs to the first piece. -/
theorem pieces_append {front : List A} (hfront : sep ∉ front) (text : List A) :
    pieces sep (front ++ text) =
      (front ++ firstPiece sep text) :: laterPieces sep text := by
  by_cases h : sep ∈ text
  · obtain ⟨rest, htext, hline⟩ := exists_line h
    have hclean : sep ∉ front ++ firstPiece sep text := by
      rw [List.mem_append, not_or]
      exact ⟨hfront, hline⟩
    have hlater : laterPieces sep text = pieces sep rest := by
      have hpieces := pieces_line hline rest
      rw [← htext] at hpieces
      rw [laterPieces, hpieces]
      rfl
    have hjoin : front ++ text = (front ++ firstPiece sep text) ++ sep :: rest := by
      conv_lhs => rw [htext, ← List.append_assoc]
      rfl
    rw [hjoin, pieces_line hclean, hlater]
  · have hclean : sep ∉ front ++ text := by
      rw [List.mem_append, not_or]
      exact ⟨hfront, h⟩
    have hone := pieces_eq_cons sep text
    rw [pieces_eq_singleton h, List.cons.injEq] at hone
    rw [pieces_eq_singleton hclean, ← hone.1, ← hone.2]

/-- A separator leaves a complete line and a later piece. -/
theorem cut_ne_nil {text : List A} (h : sep ∈ text) :
    (cut sep text).1 ≠ [] ∧ laterPieces sep text ≠ [] := by
  obtain ⟨rest, htext, hline⟩ := exists_line h
  constructor
  · rw [htext, cut_line hline]
    simp
  · rw [laterPieces, htext, pieces_line hline]
    simp [pieces]

/-- A terminated text has its pieces as lines. -/
theorem lines_pieces (text rest : List A) :
    lines sep (text ++ sep :: rest) = pieces sep text ++ lines sep rest := by
  obtain ⟨hjoin, hlines, hrest⟩ := cut_spec sep text
  have hclean : ∀ l ∈ pieces sep text, sep ∉ l := by
    intro l hl
    cases List.mem_append.mp hl with
    | inl hl => exact hlines l hl
    | inr hl => exact List.mem_singleton.mp hl ▸ hrest
  have hsplit : text ++ sep :: rest = unlines sep (pieces sep text) ++ rest := by
    conv_lhs => rw [← hjoin]
    simp [pieces]
  rw [hsplit, lines_unlines_append hclean]

end DnslessHomelab.LineText
