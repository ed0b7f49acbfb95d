import Mathlib.Data.List.Basic
import Mathlib.Data.List.Nodup
import Mathlib.Data.List.Induction

/-!
# Lists in the order of insertion

A list that members join at its end and leave from anywhere. After any operations, also
repeated insertions and erasures of nobody, it holds those inserted since their last
erasure, each once, in the order of the first such insertion.
-/
namespace DnslessHomelab.InsertionOrder
variable {A B : Type*} [DecidableEq A] [DecidableEq B]

inductive Op (A : Type*) where
  | insert (a : A)
  | erase (a : A)
  | other
  deriving DecidableEq

def apply (listed : List A) : Op A → List A
  | .insert a => if listed.contains a then listed else listed ++ [a]
  | .erase a => listed.filter (· ≠ a)
  | .other => listed

def members (ops : List (Op A)) : List A := ops.foldl apply []

theorem apply_insert_of_mem {listed : List A} {a : A} (h : a ∈ listed) :
    apply listed (.insert a) = listed := if_pos (List.contains_iff_mem.mpr h)

theorem apply_insert_of_notMem {listed : List A} {a : A} (h : a ∉ listed) :
    apply listed (.insert a) = listed ++ [a] := if_neg (mt List.contains_iff_mem.mp h)

/-- The operations behind the last erasure of a member. -/
def session (ops : List (Op A)) (a : A) : List (Op A) :=
  (ops.reverse.takeWhile (· ≠ .erase a)).reverse

/-- The position of a member's first insertion behind its last erasure. -/
def joinedAt (ops : List (Op A)) (a : A) : ℕ :=
  ops.length - (session ops a).length + (session ops a).idxOf (.insert a)

def Op.map (f : A → B) : Op A → Op B
  | .insert a => .insert (f a)
  | .erase a => .erase (f a)
  | .other => .other

theorem members_concat (ops : List (Op A)) (op : Op A) :
    members (ops ++ [op]) = apply (members ops) op := by
  rw [members, List.foldl_append, List.foldl_cons, List.foldl_nil, members]

/-- One operation on the images is one operation on the listed, if no two have the
same image. -/
theorem apply_map {f : A → B} (hf : Function.Injective f) (listed : List A) (op : Op A) :
    apply (listed.map f) (op.map f) = (apply listed op).map f := by
  cases op with
  | insert a =>
      rw [Op.map]
      by_cases ha : a ∈ listed
      · rw [apply_insert_of_mem ha, apply_insert_of_mem (List.mem_map_of_mem ha)]
      · have hfa : f a ∉ listed.map f := fun h => ha ((List.mem_map_of_injective hf).mp h)
        rw [apply_insert_of_notMem ha, apply_insert_of_notMem hfa, List.map_append]
        rfl
  | erase a =>
      dsimp only [Op.map, apply]
      rw [List.filter_map]
      congr 2
      funext b
      simp [hf.eq_iff]
  | other => rfl

theorem foldl_apply_map {f : A → B} (hf : Function.Injective f) (ops : List (Op A))
    (listed : List A) :
    (ops.map (Op.map f)).foldl apply (listed.map f) = (ops.foldl apply listed).map f := by
  induction ops generalizing listed with
  | nil => rfl
  | cons op ops ih =>
      rw [List.map_cons, List.foldl_cons, List.foldl_cons, apply_map hf]
      exact ih _

section Session
variable {ops : List (Op A)} {op : Op A} {a : A}

theorem session_concat : session (ops ++ [op]) a =
    if op = .erase a then [] else session ops a ++ [op] := by
  unfold session
  rw [List.reverse_concat, List.takeWhile_cons]
  by_cases h : op = .erase a
  · simp [h]
  · simp [h]

theorem session_length_le (ops : List (Op A)) (a : A) :
    (session ops a).length ≤ ops.length := by
  rw [session, List.length_reverse]
  have hle := (List.takeWhile_sublist (l := ops.reverse) (· ≠ .erase a)).length_le
  rwa [List.length_reverse] at hle

/-- A member is one inserted since its last erasure. -/
theorem mem_members : a ∈ members ops ↔ .insert a ∈ session ops a := by
  induction ops using List.reverseRecOn with
  | nil => simp [members, session]
  | append_singleton ops op ih =>
      rw [members_concat, session_concat]
      cases op with
      | insert b =>
          rw [if_neg (by simp), List.mem_append, List.mem_singleton, Op.insert.injEq, ← ih]
          by_cases hb : b ∈ members ops
          · rw [apply_insert_of_mem hb]
            exact ⟨.inl, fun h => h.elim id fun heq => heq ▸ hb⟩
          · rw [apply_insert_of_notMem hb, List.mem_append, List.mem_singleton]
      | erase b =>
          dsimp only [apply]
          rw [List.mem_filter, ih]
          by_cases hb : b = a
          · simp [hb]
          · simp [hb, Ne.symm hb]
      | other =>
          rw [if_neg (by simp), List.mem_append, ← ih]
          simp [apply]

/-- A member that stays keeps the position at which it joined. -/
theorem joinedAt_concat_of_mem (h : .insert a ∈ session ops a) (hop : op ≠ .erase a) :
    joinedAt (ops ++ [op]) a = joinedAt ops a := by
  unfold joinedAt
  rw [session_concat, if_neg hop, List.idxOf_append_of_mem h, List.length_append,
    List.length_append, List.length_singleton, Nat.add_sub_add_right]

theorem joinedAt_concat_self (h : .insert a ∉ session ops a) :
    joinedAt (ops ++ [.insert a]) a = ops.length := by
  unfold joinedAt
  rw [session_concat, if_neg (by simp), List.idxOf_append_of_notMem h, List.length_append,
    List.length_append, List.length_singleton, List.idxOf_cons_self, Nat.add_sub_add_right,
    Nat.add_zero, Nat.sub_add_cancel (session_length_le ops a)]

theorem joinedAt_lt (h : .insert a ∈ session ops a) : joinedAt ops a < ops.length := by
  have hle := session_length_le ops a
  have hlt := List.idxOf_lt_length_of_mem h
  unfold joinedAt
  omega

end Session

/-- Members stand in the order in which they joined. -/
theorem pairwise_joinedAt (ops : List (Op A)) :
    (members ops).Pairwise fun a b => joinedAt ops a < joinedAt ops b := by
  induction ops using List.reverseRecOn with
  | nil => exact List.Pairwise.nil
  | append_singleton ops op ih =>
      -- those that stay keep their positions, and a new member joins behind them
      have hstay : ∀ {listed : List A}, listed.Sublist (members ops) →
          (∀ a ∈ listed, op ≠ .erase a) →
          listed.Pairwise fun a b => joinedAt (ops ++ [op]) a < joinedAt (ops ++ [op]) b := by
        intro listed hsub hop
        have hkeep : ∀ a ∈ listed, joinedAt (ops ++ [op]) a = joinedAt ops a := by
          intro a ha
          exact joinedAt_concat_of_mem (mem_members.mp (hsub.subset ha)) (hop a ha)
        apply (ih.sublist hsub).imp_of_mem
        intro a b ha hb hlt
        rw [hkeep a ha, hkeep b hb]
        exact hlt
      rw [members_concat]
      cases op with
      | insert b =>
          have hfront := hstay (List.Sublist.refl (members ops)) (by simp)
          by_cases hb : b ∈ members ops
          · rw [apply_insert_of_mem hb]
            exact hfront
          · rw [apply_insert_of_notMem hb, List.pairwise_append]
            refine ⟨hfront, List.pairwise_singleton .., ?_⟩
            intro a ha c hc
            rw [List.mem_singleton.mp hc, joinedAt_concat_self (mt mem_members.mpr hb)]
            have hmem := mem_members.mp ha
            rw [joinedAt_concat_of_mem hmem (by simp)]
            exact joinedAt_lt hmem
      | erase b =>
          dsimp only [apply]
          apply hstay List.filter_sublist
          intro a ha heq
          have hne := (List.mem_filter.mp ha).2
          cases heq
          simp at hne
      | other => exact hstay (List.Sublist.refl _) (by simp)

/-- Nobody is a member twice. -/
theorem nodup_members (ops : List (Op A)) : (members ops).Nodup := by
  apply (pairwise_joinedAt ops).imp
  intro a b hlt heq
  rw [heq] at hlt
  exact Nat.lt_irrefl _ hlt

end DnslessHomelab.InsertionOrder
