import Mathlib.Data.List.Basic

/-!
# Path resolution in a tree with links

Directories, files and symbolic links, found by the names on the way to them. A path is
walked name by name: every step stands in a directory, `..` of the top is the top, and
the target of a link is walked in its place, from the top or from where the link stands.

`Resolves` has a derivation for every walk that ends and counts the links it follows;
`walk` follows a given number of links at most, so that it evaluates.
-/
namespace DnslessHomelab.FileTree
variable {N C : Type*}

inductive Segment (N : Type*) where
  | here
  | parent
  | name (n : N)
  deriving DecidableEq, Repr

/-- A path, from the top or from where one stands. -/
structure Route (N : Type*) where
  absolute : Bool
  segments : List (Segment N)
  deriving DecidableEq, Repr

inductive Entry (N C : Type*) where
  | dir
  | file (content : C)
  | link (target : Route N)
  deriving DecidableEq, Repr

/-- What is found at the end of the names from the top. -/
abbrev Tree (N C : Type*) := List N → Option (Entry N C)

/-- Where a route begins, seen from a directory. -/
def Route.start (r : Route N) (cur : List N) : List N := if r.absolute then [] else cur

def isDir : Option (Entry N C) → Bool
  | some .dir => true
  | some (.file _) | some (.link _) | none => false

inductive Resolves (tree : Tree N C) : List N → List (Segment N) → ℕ → List N → Prop
  | done (cur : List N) : Resolves tree cur [] 0 cur
  | here {cur target : List N} {segs : List (Segment N)} {n : ℕ} :
      isDir (tree cur) = true → Resolves tree cur segs n target →
      Resolves tree cur (.here :: segs) n target
  | parent {cur target : List N} {segs : List (Segment N)} {n : ℕ} :
      isDir (tree cur) = true → Resolves tree cur.dropLast segs n target →
      Resolves tree cur (.parent :: segs) n target
  | enter {cur target : List N} {name : N} {segs : List (Segment N)} {n : ℕ} (e : Entry N C) :
      isDir (tree cur) = true → tree (cur ++ [name]) = some e → (∀ r, e ≠ .link r) →
      Resolves tree (cur ++ [name]) segs n target →
      Resolves tree cur (.name name :: segs) n target
  | follow {cur target : List N} {name : N} {segs : List (Segment N)} {n : ℕ} (r : Route N) :
      isDir (tree cur) = true → tree (cur ++ [name]) = some (.link r) →
      Resolves tree (r.start cur) (r.segments ++ segs) n target →
      Resolves tree cur (.name name :: segs) (n + 1) target

/-- The steps up to the next link; `follow` walks on from there. -/
def steps (tree : Tree N C) (left : ℕ)
    (follow : List N → List (Segment N) → Option (List N × ℕ)) :
    List N → List (Segment N) → Option (List N × ℕ)
  | cur, [] => some (cur, left)
  | cur, seg :: segs =>
      if isDir (tree cur) then
        match seg with
        | .here => steps tree left follow cur segs
        | .parent => steps tree left follow cur.dropLast segs
        | .name name =>
            match tree (cur ++ [name]) with
            | none => none
            | some (.link r) => follow (r.start cur) (r.segments ++ segs)
            | some .dir | some (.file _) => steps tree left follow (cur ++ [name]) segs
      else none

/-- Where the walk ends, and how many links it could still have followed. -/
def walk (tree : Tree N C) : ℕ → List N → List (Segment N) → Option (List N × ℕ)
  | 0 => steps tree 0 fun _ _ => none
  | limit + 1 => steps tree (limit + 1) (walk tree limit)

section Walk
variable {tree : Tree N C} {cur target : List N} {segs : List (Segment N)} {limit left : ℕ}

/-- One unfolding for every limit. -/
theorem walk_cons (seg : Segment N) :
    walk tree limit cur (seg :: segs) =
      if isDir (tree cur) then
        match seg with
        | .here => walk tree limit cur segs
        | .parent => walk tree limit cur.dropLast segs
        | .name name =>
            match tree (cur ++ [name]), limit with
            | none, _ | some (.link _), 0 => none
            | some (.link r), limit + 1 => walk tree limit (r.start cur) (r.segments ++ segs)
            | some .dir, limit | some (.file _), limit => walk tree limit (cur ++ [name]) segs
      else none := by
  cases limit with
  | zero | succ limit =>
      rw [walk, steps.eq_def]
      dsimp only
      split_ifs with hdir
      · cases seg with
        | here | parent => rfl
        | name name =>
            dsimp only
            cases tree (cur ++ [name]) with
            | none => rfl
            | some e => cases e <;> rfl
      · rfl

theorem walk_nil : walk tree limit cur [] = some (cur, limit) := by
  cases limit <;> rfl

theorem walk_of_resolves {n : ℕ} (h : Resolves tree cur segs n target) (left : ℕ) :
    walk tree (n + left) cur segs = some (target, left) := by
  induction h with
  | done cur => rw [walk_nil, Nat.zero_add]
  | here hdir _ ih => rw [walk_cons, if_pos hdir, ih]
  | parent hdir _ ih => rw [walk_cons, if_pos hdir, ih]
  | enter e hdir hentry hlink _ ih =>
      rw [walk_cons, if_pos hdir]
      cases e with
      | link r => exact absurd rfl (hlink r)
      | dir | file => simp only [hentry, ih]
  | follow r hdir hentry _ ih =>
      have hlimit : ∀ n, n + 1 + left = n + left + 1 := fun n => by omega
      rw [walk_cons, if_pos hdir, hlimit]
      simp only [hentry, ih]

/-- A walk that ends has a derivation, if that holds of the walks behind a link. -/
theorem resolves_of_walk_below
    (hbelow : ∀ l, l + 1 = limit → ∀ cur segs, walk tree l cur segs = some (target, left) →
      ∃ n, Resolves tree cur segs n target ∧ n + left = l)
    (h : walk tree limit cur segs = some (target, left)) :
    ∃ n, Resolves tree cur segs n target ∧ n + left = limit := by
  induction segs generalizing cur with
  | nil =>
      rw [walk_nil] at h
      cases h
      exact ⟨0, .done _, Nat.zero_add _⟩
  | cons seg segs ih =>
      rw [walk_cons] at h
      split_ifs at h with hdir
      cases seg with
      | here =>
          obtain ⟨n, hn, hleft⟩ := ih h
          exact ⟨n, .here hdir hn, hleft⟩
      | parent =>
          obtain ⟨n, hn, hleft⟩ := ih h
          exact ⟨n, .parent hdir hn, hleft⟩
      | name name =>
          dsimp only at h
          split at h
          · cases h
          · cases h
          · rename_i r l hentry
            obtain ⟨n, hn, hleft⟩ := hbelow l rfl _ _ h
            exact ⟨n + 1, .follow r hdir hentry hn, by omega⟩
          · rename_i hentry
            obtain ⟨n, hn, hleft⟩ := ih h
            exact ⟨n, .enter .dir hdir hentry (fun r hr => by cases hr) hn, hleft⟩
          · rename_i content hentry
            obtain ⟨n, hn, hleft⟩ := ih h
            exact ⟨n, .enter (.file content) hdir hentry (fun r hr => by cases hr) hn, hleft⟩

/-- The walk ends exactly where the path resolves to, as long as the limit suffices. -/
theorem walk_eq_some_iff : walk tree limit cur segs = some (target, left) ↔
    ∃ n, Resolves tree cur segs n target ∧ n + left = limit := by
  constructor
  · intro h
    induction limit generalizing cur segs with
    | zero =>
        apply resolves_of_walk_below _ h
        intro l hl
        omega
    | succ limit ih =>
        apply resolves_of_walk_below _ h
        intro l hl cur segs hwalk
        cases Nat.succ.inj hl
        exact ih hwalk
  · intro h
    obtain ⟨n, hn, rfl⟩ := h
    exact walk_of_resolves hn left

theorem resolves_unique {n n' : ℕ} {target' : List N} (h : Resolves tree cur segs n target)
    (h' : Resolves tree cur segs n' target') : target = target' ∧ n = n' := by
  have hwalk := walk_of_resolves h n'
  rw [Nat.add_comm, walk_of_resolves h' n] at hwalk
  cases hwalk
  exact ⟨rfl, rfl⟩

end Walk

section Append
variable {tree : Tree N C} {cur mid target : List N} {front back segs : List (Segment N)}
variable {a b n : ℕ}

/-- The rest of a path is walked from where its first part ends. -/
theorem Resolves.append (hfront : Resolves tree cur front a mid)
    (hback : Resolves tree mid back b target) :
    Resolves tree cur (front ++ back) (a + b) target := by
  induction hfront with
  | done cur =>
      rw [Nat.zero_add]
      exact hback
  | here hdir _ ih => exact .here hdir (ih hback)
  | parent hdir _ ih => exact .parent hdir (ih hback)
  | enter e hdir hentry hlink _ ih => exact .enter e hdir hentry hlink (ih hback)
  | follow r hdir hentry _ ih =>
      have hrest := ih hback
      rw [List.append_assoc] at hrest
      rw [Nat.add_right_comm]
      exact .follow r hdir hentry hrest

theorem Resolves.split_nil (h : Resolves tree cur segs n target) :
    ∃ a mid b, Resolves tree cur [] a mid ∧ Resolves tree mid segs b target ∧ a + b = n :=
  ⟨0, cur, n, .done cur, h, Nat.zero_add n⟩

theorem Resolves.split (h : Resolves tree cur segs n target) (hs : segs = front ++ back) :
    ∃ a mid b, Resolves tree cur front a mid ∧ Resolves tree mid back b target ∧ a + b = n := by
  induction h generalizing front with
  | done cur =>
      obtain ⟨rfl, rfl⟩ := List.append_eq_nil_iff.mp hs.symm
      exact (Resolves.done cur).split_nil
  | here hdir hrest ih =>
      cases front with
      | nil =>
          cases hs
          exact (Resolves.here hdir hrest).split_nil
      | cons seg front =>
          obtain ⟨rfl, htail⟩ := List.cons.inj hs
          obtain ⟨a, mid, b, hfront, hback, hn⟩ := ih htail
          exact ⟨a, mid, b, .here hdir hfront, hback, hn⟩
  | parent hdir hrest ih =>
      cases front with
      | nil =>
          cases hs
          exact (Resolves.parent hdir hrest).split_nil
      | cons seg front =>
          obtain ⟨rfl, htail⟩ := List.cons.inj hs
          obtain ⟨a, mid, b, hfront, hback, hn⟩ := ih htail
          exact ⟨a, mid, b, .parent hdir hfront, hback, hn⟩
  | enter e hdir hentry hlink hrest ih =>
      cases front with
      | nil =>
          cases hs
          exact (Resolves.enter e hdir hentry hlink hrest).split_nil
      | cons seg front =>
          obtain ⟨rfl, htail⟩ := List.cons.inj hs
          obtain ⟨a, mid, b, hfront, hback, hn⟩ := ih htail
          exact ⟨a, mid, b, .enter e hdir hentry hlink hfront, hback, hn⟩
  | follow r hdir hentry hrest ih =>
      cases front with
      | nil =>
          cases hs
          exact (Resolves.follow r hdir hentry hrest).split_nil
      | cons seg front =>
          obtain ⟨rfl, rfl⟩ := List.cons.inj hs
          obtain ⟨a, mid, b, hfront, hback, hn⟩ := ih (List.append_assoc ..).symm
          exact ⟨a + 1, mid, b, .follow r hdir hentry hfront, hback, by omega⟩

/-- Names without a link among them lead where they say. -/
theorem resolves_names {names : List N}
    (hdirs : ∀ front back, names = front ++ back → back ≠ [] → isDir (tree (cur ++ front)) = true)
    {e : Entry N C} (hlast : tree (cur ++ names) = some e) (hlink : ∀ r, e ≠ .link r) :
    Resolves tree cur (names.map .name) 0 (cur ++ names) := by
  induction names generalizing cur with
  | nil =>
      rw [List.append_nil]
      exact .done cur
  | cons name names ih =>
      have hsplit : cur ++ name :: names = (cur ++ [name]) ++ names := List.append_cons ..
      have hcur := hdirs [] (name :: names) rfl (by simp)
      rw [List.append_nil] at hcur
      rw [hsplit] at hlast ⊢
      have hrest : Resolves tree (cur ++ [name]) (names.map .name) 0 (cur ++ [name] ++ names) := by
        refine ih ?_ hlast
        intro front back heq hback
        have hdir := hdirs (name :: front) back (by rw [heq, List.cons_append]) hback
        rwa [List.append_cons] at hdir
      cases names with
      | nil =>
          rw [List.append_nil] at hlast
          exact .enter e hcur hlast hlink hrest
      | cons next names =>
          have hdir := hdirs [name] (next :: names) rfl (by simp)
          cases hentry : tree (cur ++ [name]) with
          | none =>
              rw [hentry] at hdir
              cases hdir
          | some entry =>
              refine .enter entry hcur hentry ?_ hrest
              rintro r rfl
              rw [hentry] at hdir
              cases hdir

theorem resolves_append_iff : Resolves tree cur (front ++ back) n target ↔
    ∃ a mid b, Resolves tree cur front a mid ∧ Resolves tree mid back b target ∧ a + b = n := by
  constructor
  · exact fun h => h.split rfl
  · intro h
    obtain ⟨a, mid, b, hfront, hback, rfl⟩ := h
    exact hfront.append hback

end Append

end DnslessHomelab.FileTree
