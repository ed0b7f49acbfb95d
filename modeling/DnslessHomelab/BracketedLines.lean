import Mathlib.Data.List.Basic
import Mathlib.Data.List.Infix

/-!
# Lines between two brackets

Lists with a begin and an end entry that need not match. An entry is foreign when
it is no bracket and does not stand inside a complete pair: last bracket before it
a begin, first bracket after it an end. `update` cuts from the first begin to the
first end wherever these stand, or appends when one is missing. The foreign
entries survive a run of updates exactly when none is at risk: none lies between
the first bracket and the first bracket of the other kind.
-/
namespace DnslessHomelab.BracketedLines
variable {A : Type*} [DecidableEq A] (b e : A)

def IsBracket (l : A) : Prop := l = b ∨ l = e

instance (l : A) : Decidable (IsBracket b e l) := inferInstanceAs (Decidable (_ ∨ _))

/-- Foreign entries of a list whose last bracket before it is `last`. -/
def foreignFrom (last : Option A) : List A → List A
  | [] => []
  | l :: ls =>
      if IsBracket b e l then foreignFrom (some l) ls
      else if last = some b ∧ ls.find? (IsBracket b e ·) = some e then foreignFrom last ls
      else l :: foreignFrom last ls

def foreign (ls : List A) : List A := foreignFrom b e none ls

/-- Replacement from the first begin to the first end, or a new pair at the end. -/
def update (d : A) (ls : List A) : List A :=
  match ls.idxOf? b, ls.idxOf? e with
  | some i, some j => ls.take i ++ [b, d, e] ++ ls.drop (j + 1)
  | _, _ => ls ++ [b, d, e]

def updates (ls : List A) (ds : List A) : List A := ds.foldl (fun ls d => update b e d ls) ls

/-- Foreign entries from the first bracket to the first one of the other kind, or to
the end of the list. -/
def atRisk (ls : List A) : List A :=
  match ls.dropWhile fun l => !decide (IsBracket b e l) with
  | [] => []
  | m :: tail => foreignFrom b e (some m) (tail.take (tail.idxOf (if m = b then e else b) + 1))

variable {b e}

omit [DecidableEq A] in
@[simp] theorem isBracket_begin : IsBracket b e b := .inl rfl

omit [DecidableEq A] in
@[simp] theorem isBracket_end : IsBracket b e e := .inr rfl

section Foreign

theorem foreignFrom_of_no_bracket {last : Option A} {ls : List A}
    (h : ∀ l ∈ ls, ¬ IsBracket b e l) : foreignFrom b e last ls = ls := by
  induction ls with
  | nil => rfl
  | cons l ls ih =>
      have hl := h l (by simp)
      have hls : ∀ k ∈ ls, ¬ IsBracket b e k := fun k hk => h k (by simp [hk])
      have hnext : ls.find? (IsBracket b e ·) = none := by simpa using hls
      simp [foreignFrom, hl, hnext, ih hls]

/-- A bracket separates what stands before it from what stands after it. -/
theorem foreignFrom_append {last : Option A} {m : A} (hm : IsBracket b e m) (ls rest : List A) :
    foreignFrom b e last (ls ++ m :: rest) =
      foreignFrom b e last (ls ++ [m]) ++ foreignFrom b e (some m) rest := by
  induction ls generalizing last with
  | nil => simp [foreignFrom, hm]
  | cons l ls ih =>
      have hnext : (ls ++ m :: rest).find? (IsBracket b e ·) =
          (ls ++ [m]).find? (IsBracket b e ·) := by
        simp [List.find?_append, hm]
      simp only [List.cons_append, foreignFrom, hnext, ih]
      split_ifs <;> rfl

/-- A last begin encloses nothing. -/
theorem foreignFrom_concat_begin (hbe : b ≠ e) {last : Option A} (ls : List A) :
    foreignFrom b e last (ls ++ [b]) = foreignFrom b e last ls := by
  induction ls generalizing last with
  | nil => simp [foreignFrom, IsBracket]
  | cons l ls ih =>
      have hnext : (ls ++ [b]).find? (IsBracket b e ·) = some e ↔
          ls.find? (IsBracket b e ·) = some e := by
        rw [List.find?_append]
        cases ls.find? (IsBracket b e ·) <;> simp [hbe]
      simp only [List.cons_append, foreignFrom, hnext, ih]

theorem foreignFrom_pair (d : A) (rest : List A) :
    foreignFrom b e (some b) (d :: e :: rest) = foreignFrom b e (some e) rest := by
  simp [foreignFrom]

/-- Outside a begin, entries without bracket are foreign. -/
theorem foreignFrom_head {m : A} (hm : IsBracket b e m) {head : List A}
    (hh : ∀ l ∈ head, ¬ IsBracket b e l) (rest : List A) :
    foreign b e (head ++ m :: rest) = head ++ foreignFrom b e (some m) rest := by
  rw [foreign, foreignFrom_append hm]
  congr 1
  induction head with
  | nil => simp [foreignFrom, hm]
  | cons l head ih =>
      have hl := hh l (by simp)
      simp [foreignFrom, hl, ih fun k hk => hh k (by simp [hk])]

end Foreign

section Shape

/-- No bracket, brackets of one kind, or a first one of each kind. -/
theorem shape (ls : List A) :
    (∀ l ∈ ls, ¬ IsBracket b e l) ∨
      ∃ head m tail, ls = head ++ m :: tail ∧ (∀ l ∈ head, ¬ IsBracket b e l) ∧
        IsBracket b e m := by
  induction ls with
  | nil => simp
  | cons l ls ih =>
      by_cases hl : IsBracket b e l
      · exact .inr ⟨[], l, ls, rfl, by simp, hl⟩
      · rcases ih with h | ⟨head, m, tail, rfl, hh, hm⟩
        · exact .inl (by simpa [hl] using h)
        · exact .inr ⟨l :: head, m, tail, rfl, by simpa [hl] using hh, hm⟩

theorem atRisk_cons {m : A} (hm : IsBracket b e m) {head : List A}
    (hh : ∀ l ∈ head, ¬ IsBracket b e l) (tail : List A) :
    atRisk b e (head ++ m :: tail) =
      foreignFrom b e (some m) (tail.take (tail.idxOf (if m = b then e else b) + 1)) := by
  have hdrop : (head ++ m :: tail).dropWhile (fun l => !decide (IsBracket b e l)) = m :: tail := by
    rw [List.dropWhile_append_of_pos (by simpa using hh)]
    simp [hm]
  simp only [atRisk, hdrop]

theorem atRisk_of_no_bracket {ls : List A} (h : ∀ l ∈ ls, ¬ IsBracket b e l) :
    atRisk b e ls = [] := by
  have hdrop : ls.dropWhile (fun l => !decide (IsBracket b e l)) = [] := by
    induction ls with
    | nil => rfl
    | cons l ls ih => simp [h l (by simp), ih fun k hk => h k (by simp [hk])]
  simp only [atRisk, hdrop]

theorem foreign_append_pair (hbe : b ≠ e) (d : A) (ls : List A) :
    foreign b e (ls ++ [b, d, e]) = foreign b e ls := by
  rw [foreign, foreignFrom_append isBracket_begin, foreignFrom_concat_begin hbe,
    foreignFrom_pair]
  simp [foreignFrom, foreign]

end Shape

section Update

theorem update_append {d : A} {ls : List A} (h : b ∉ ls ∨ e ∉ ls) :
    update b e d ls = ls ++ [b, d, e] := by
  unfold update
  rcases h with h | h
  · rw [List.idxOf?_eq_none_iff.mpr h]
  · rw [List.idxOf?_eq_none_iff.mpr h]
    split
    · next he => simp at he
    · rfl

theorem mem_update {d l : A} {ls : List A} (h : l ∈ update b e d ls) :
    l ∈ ls ∨ l ∈ [b, d, e] := by
  unfold update at h
  split at h
  · rcases List.mem_append.mp h with h | h
    · exact (List.mem_append.mp h).imp_left List.mem_of_mem_take
    · exact .inl (List.mem_of_mem_drop h)
  · exact List.mem_append.mp h

theorem idxOf?_append_cons {x : A} {ls : List A} (h : x ∉ ls) (rest : List A) :
    (ls ++ x :: rest).idxOf? x = some ls.length := by
  induction ls with
  | nil => simp [List.idxOf?_cons]
  | cons l ls ih =>
      simp only [List.mem_cons, not_or] at h
      simp [List.idxOf?_cons, Ne.symm h.1, ih h.2]

/-- The text before the first begin and the text after the first end remain. -/
theorem update_split (d : A) {ls front back before after : List A}
    (hb : ls = front ++ b :: back) (hfront : b ∉ front)
    (he : ls = before ++ e :: after) (hbefore : e ∉ before) :
    update b e d ls = front ++ b :: d :: e :: after := by
  have hi : ls.idxOf? b = some front.length := hb ▸ idxOf?_append_cons hfront back
  have hj : ls.idxOf? e = some before.length := he ▸ idxOf?_append_cons hbefore after
  have htake : ls.take front.length = front := by rw [hb, List.take_left]
  have hdrop : ls.drop (before.length + 1) = after := by
    rw [he, ← List.drop_drop, List.drop_left]
    rfl
  unfold update
  rw [hi, hj]
  simp [htake, hdrop]

theorem update_begin_end (hbe : b ≠ e) (d : A) {head gap : List A}
    (hh : ∀ l ∈ head, ¬ IsBracket b e l) (hg : e ∉ gap) (rest : List A) :
    update b e d (head ++ b :: (gap ++ e :: rest)) = head ++ b :: ([d] ++ e :: rest) := by
  have he : e ∉ head ++ b :: gap := by
    simp only [List.mem_append, List.mem_cons, not_or]
    exact ⟨fun hm => hh e hm isBracket_end, hbe.symm, hg⟩
  exact update_split d rfl (fun hm => hh b hm isBracket_begin) (by simp) he

/-- Everything from the first end to the first begin is kept twice. -/
theorem update_end_begin (hbe : b ≠ e) (d : A) {head gap : List A}
    (hh : ∀ l ∈ head, ¬ IsBracket b e l) (hg : b ∉ gap) (rest : List A) :
    update b e d (head ++ e :: (gap ++ b :: rest)) =
      head ++ e :: (gap ++ b :: (d :: e :: (gap ++ b :: rest))) := by
  have hb : b ∉ head ++ e :: gap := by
    simp only [List.mem_append, List.mem_cons, not_or]
    exact ⟨fun hm => hh b hm isBracket_begin, hbe, hg⟩
  have hsplit : head ++ e :: (gap ++ b :: rest) = (head ++ e :: gap) ++ b :: rest := by simp
  rw [update_split d hsplit hb rfl fun hm => hh e hm isBracket_end]
  simp

end Update

section Run

theorem take_idxOf {o : A} {gap : List A} (h : o ∉ gap) (rest : List A) :
    (gap ++ o :: rest).take ((gap ++ o :: rest).idxOf o + 1) = gap ++ [o] := by
  have hi : (gap ++ o :: rest).idxOf o = gap.length := by
    rw [List.idxOf_append_of_notMem h]
    simp
  rw [hi, List.take_append]
  simp

theorem atRisk_missing {m : A} (hm : IsBracket b e m) {head tail : List A}
    (hh : ∀ l ∈ head, ¬ IsBracket b e l) (ht : (if m = b then e else b) ∉ tail) :
    atRisk b e (head ++ m :: tail) = foreignFrom b e (some m) tail := by
  rw [atRisk_cons hm hh, List.idxOf_of_notMem ht, List.take_of_length_le (by omega)]

theorem updates_cons (d : A) (ds ls : List A) :
    updates b e ls (d :: ds) = updates b e (update b e d ls) ds := rfl

/-- An exact pair is replaced by an exact pair, and the rest is fixed. -/
theorem foreign_updates_begin (hbe : b ≠ e) {head : List A}
    (hh : ∀ l ∈ head, ¬ IsBracket b e l) (rest : List A) {d : A} {ds : List A}
    (hds : ∀ x ∈ d :: ds, ¬ IsBracket b e x) :
    foreign b e (updates b e (head ++ b :: ([d] ++ e :: rest)) ds) =
      head ++ foreignFrom b e (some e) rest := by
  induction ds generalizing d with
  | nil =>
      exact (foreignFrom_head isBracket_begin hh _).trans
        (congrArg (head ++ ·) (foreignFrom_pair d rest))
  | cons x ds ih =>
      have hd : e ∉ [d] := fun hm => hds d (by simp) (.inr (List.mem_singleton.mp hm).symm)
      rw [updates_cons, update_begin_end hbe x hh hd]
      exact ih fun y hy => hds y (by simp [hy])

/-- Every replacement across an end and a later begin repeats what stands between. -/
theorem foreign_updates_end (hbe : b ≠ e) {head gap : List A}
    (hh : ∀ l ∈ head, ¬ IsBracket b e l) (hg : b ∉ gap) (rest ds : List A) :
    foreign b e (updates b e (head ++ e :: (gap ++ b :: rest)) ds) =
      head ++ ((List.replicate (ds.length + 1) (foreignFrom b e (some e) (gap ++ [b]))).flatten ++
        foreignFrom b e (some b) rest) := by
  induction ds generalizing rest with
  | nil =>
      rw [updates, List.foldl_nil, foreignFrom_head isBracket_end hh,
        foreignFrom_append isBracket_begin]
      simp
  | cons d ds ih =>
      have hrep := List.replicate_succ' (n := ds.length + 1)
        (a := foreignFrom b e (some e) (gap ++ [b]))
      rw [updates_cons, update_end_begin hbe d hh hg, ih, foreignFrom_pair,
        foreignFrom_append isBracket_begin gap rest, List.length_cons, hrep]
      simp only [List.flatten_append, List.flatten_singleton, List.append_assoc]

/-- Both kinds present: a nonempty run keeps the foreign entries iff none is at risk. -/
theorem foreign_updates_both (hbe : b ≠ e) {m : A} (hm : IsBracket b e m) {head tail : List A}
    (hh : ∀ l ∈ head, ¬ IsBracket b e l) (ht : (if m = b then e else b) ∈ tail) {d : A}
    {ds : List A} (hds : ∀ x ∈ d :: ds, ¬ IsBracket b e x) :
    foreign b e (updates b e (head ++ m :: tail) (d :: ds)) = foreign b e (head ++ m :: tail) ↔
      atRisk b e (head ++ m :: tail) = [] := by
  obtain ⟨gap, rest, rfl, hgap⟩ := List.eq_append_cons_of_mem ht
  rw [atRisk_cons hm hh, take_idxOf hgap, foreignFrom_head hm hh]
  rcases hm with rfl | rfl
  · rw [if_pos rfl] at hgap ⊢
    rw [updates_cons, update_begin_end hbe d hh hgap, foreign_updates_begin hbe hh rest hds,
      foreignFrom_append isBracket_end, List.append_right_inj]
    constructor
    · exact fun h => by simpa using congrArg List.length h
    · exact fun h => by rw [h, List.nil_append]
  · rw [if_neg hbe.symm] at hgap ⊢
    rw [foreign_updates_end hbe hh hgap, foreignFrom_append isBracket_begin gap rest,
      List.append_right_inj, List.append_left_inj]
    constructor
    · intro h
      have hl := congrArg List.length h
      simp only [List.length_cons, List.length_flatten, List.map_replicate,
        List.sum_replicate_nat] at hl
      rw [Nat.succ_mul, Nat.add_eq_right, Nat.mul_eq_zero] at hl
      exact List.eq_nil_of_length_eq_zero (hl.resolve_left (by omega))
    · exact fun h => by simp [h]

/-- Appending the missing bracket exposes the same entries to the next update. -/
theorem atRisk_append_pair (hbe : b ≠ e) {m : A} (hm : IsBracket b e m) {head tail : List A}
    (hh : ∀ l ∈ head, ¬ IsBracket b e l) (ht : (if m = b then e else b) ∉ tail) {d : A}
    (hd : ¬ IsBracket b e d) :
    atRisk b e (head ++ m :: (tail ++ [b, d, e])) = atRisk b e (head ++ m :: tail) := by
  rw [atRisk_missing hm hh ht, atRisk_cons hm hh]
  rcases hm with rfl | rfl
  · rw [if_pos rfl] at ht ⊢
    have hgap : e ∉ tail ++ [m, d] := by
      simp only [List.mem_append, List.mem_cons, List.not_mem_nil, or_false, not_or]
      exact ⟨ht, hbe.symm, fun he => hd (.inr he.symm)⟩
    have hsplit : tail ++ [m, d, e] = (tail ++ [m, d]) ++ e :: [] := by simp
    rw [hsplit, take_idxOf hgap, List.append_assoc]
    exact (foreignFrom_append isBracket_begin tail [d, e]).trans (by
      rw [foreignFrom_concat_begin hbe, foreignFrom_pair]
      simp [foreignFrom])
  · rw [if_neg hbe.symm] at ht ⊢
    rw [take_idxOf ht, foreignFrom_concat_begin hbe]

/-- The run keeps the foreign entries exactly when nothing was updated, nothing is at
risk, or the only update was an append. -/
theorem foreign_updates_iff (hbe : b ≠ e) (ls : List A) {ds : List A}
    (hds : ∀ d ∈ ds, ¬ IsBracket b e d) :
    foreign b e (updates b e ls ds) = foreign b e ls ↔
      ds = [] ∨ atRisk b e ls = [] ∨ ((b ∉ ls ∨ e ∉ ls) ∧ ds.length = 1) := by
  cases ds with
  | nil => simp [updates]
  | cons d ds =>
      rcases shape ls with hno | ⟨head, m, tail, rfl, hh, hm⟩
      · have hb : b ∉ ls := fun h => hno b h isBracket_begin
        refine iff_of_true ?_ (.inr (.inl (atRisk_of_no_bracket hno)))
        rw [updates_cons, update_append (.inl hb)]
        exact (foreign_updates_begin hbe hno [] hds).trans (by
          rw [foreign, foreignFrom_of_no_bracket hno]
          simp [foreignFrom])
      · by_cases ht : (if m = b then e else b) ∈ tail
        · have hboth : b ∈ head ++ m :: tail ∧ e ∈ head ++ m :: tail := by
            rcases hm with rfl | rfl
            · rw [if_pos rfl] at ht
              simp [ht]
            · rw [if_neg hbe.symm] at ht
              simp [ht]
          rw [foreign_updates_both hbe hm hh ht hds]
          simp [hboth]
        · have hmiss : b ∉ head ++ m :: tail ∨ e ∉ head ++ m :: tail := by
            rcases hm with rfl | rfl
            · rw [if_pos rfl] at ht
              right
              intro h
              rcases List.mem_append.mp h with h | h
              · exact hh e h isBracket_end
              · exact (List.mem_cons.mp h).elim (fun h => hbe h.symm) ht
            · rw [if_neg hbe.symm] at ht
              left
              intro h
              rcases List.mem_append.mp h with h | h
              · exact hh b h isBracket_begin
              · exact (List.mem_cons.mp h).elim hbe ht
          rw [updates_cons, update_append hmiss]
          cases ds with
          | nil =>
              refine iff_of_true (foreign_append_pair hbe d _) (.inr (.inr ⟨hmiss, rfl⟩))
          | cons x ds =>
              have hd := hds d (by simp)
              have hmem : (if m = b then e else b) ∈ tail ++ [b, d, e] := by
                split_ifs <;> simp
              have hrest : ∀ y ∈ x :: ds, ¬ IsBracket b e y :=
                fun y hy => hds y (List.mem_cons_of_mem d hy)
              have hboth := foreign_updates_both hbe hm hh hmem hrest
              rw [atRisk_append_pair hbe hm hh ht hd] at hboth
              have hpair := foreign_append_pair hbe d (head ++ m :: tail)
              rw [List.append_assoc, List.cons_append] at hpair ⊢
              rw [← hpair, hboth]
              simp

end Run

end DnslessHomelab.BracketedLines
