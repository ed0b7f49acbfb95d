import Mathlib.Data.List.Infix

/-!
# JSON texts and their prefixes

The grammar of JSON texts as character lists, with escapes in strings, and one
scan that follows the nesting depth and whether a string is open. A complete
value leaves the scan where it was; a cut through an object leaves it inside.
Hence no strict prefix of an object is itself a JSON text.

Of numbers and of the three literal names only the alphabet is recorded.
-/
namespace DnslessHomelab.JsonText

def isSpace (c : Char) : Bool := c = ' ' || c = '\t' || c = '\n' || c = '\r'

def isAtomChar (c : Char) : Bool := c.isAlphanum || c = '+' || c = '-' || c = '.'

/-- What stands between the quotes of a string. -/
inductive StringBody : List Char → Prop
  | nil : StringBody []
  | plain (c : Char) (s : List Char) (hquote : c ≠ '"') (hslash : c ≠ '\\')
      (hcontrol : 32 ≤ c.toNat) : StringBody s → StringBody (c :: s)
  | escape (c : Char) (s : List Char) (hc : c ∈ "\"\\/bfnrt".toList) :
      StringBody s → StringBody ('\\' :: c :: s)
  | unicode (digits s : List Char) (hlength : digits.length = 4)
      (hdigits : ∀ c ∈ digits, c.isAlphanum = true) :
      StringBody s → StringBody ('\\' :: 'u' :: (digits ++ s))

def quoted (s : List Char) : List Char := '"' :: (s ++ ['"'])

def Space (s : List Char) : Prop := ∀ c ∈ s, isSpace c = true

inductive Kind where
  | value | elements | members

inductive Json : Kind → List Char → Prop
  | atom (s : List Char) (hne : s ≠ []) (hs : ∀ c ∈ s, isAtomChar c = true) : Json .value s
  | string (s : List Char) (hs : StringBody s) : Json .value (quoted s)
  | emptyArray (s : List Char) (hs : Space s) : Json .value ('[' :: (s ++ [']']))
  | array (s : List Char) : Json .elements s → Json .value ('[' :: (s ++ [']']))
  | emptyObject (s : List Char) (hs : Space s) : Json .value ('{' :: (s ++ ['}']))
  | object (s : List Char) : Json .members s → Json .value ('{' :: (s ++ ['}']))
  | element (a v b : List Char) (ha : Space a) (hb : Space b) :
      Json .value v → Json .elements (a ++ v ++ b)
  | elements (a v b rest : List Char) (ha : Space a) (hb : Space b) :
      Json .value v → Json .elements rest → Json .elements (a ++ v ++ b ++ [','] ++ rest)
  | member (a k b c v d : List Char) (ha : Space a) (hk : StringBody k) (hb : Space b)
      (hc : Space c) (hd : Space d) :
      Json .value v → Json .members (a ++ quoted k ++ b ++ [':'] ++ c ++ v ++ d)
  | members (a k b c v d rest : List Char) (ha : Space a) (hk : StringBody k) (hb : Space b)
      (hc : Space c) (hd : Space d) :
      Json .value v → Json .members rest →
      Json .members (a ++ quoted k ++ b ++ [':'] ++ c ++ v ++ d ++ [','] ++ rest)

/-- One value, with white space around it. -/
def IsText (t : List Char) : Prop :=
  ∃ a v b, Space a ∧ Json .value v ∧ Space b ∧ t = a ++ v ++ b

/-- An object, without white space around it. -/
def IsObject (t : List Char) : Prop :=
  ∃ s, (Space s ∨ Json .members s) ∧ t = '{' :: (s ++ ['}'])

inductive Mode where
  | outside | inString | escaped
  deriving DecidableEq

/-- Nesting depth and string state after one more character. -/
def scan : ℕ × Mode → Char → ℕ × Mode
  | (depth, .outside), c =>
      if c = '"' then (depth, .inString)
      else if c = '{' ∨ c = '[' then (depth + 1, .outside)
      else if c = '}' ∨ c = ']' then (depth - 1, .outside)
      else (depth, .outside)
  | (depth, .inString), c =>
      if c = '\\' then (depth, .escaped)
      else if c = '"' then (depth, .outside)
      else (depth, .inString)
  | (depth, .escaped), _ => (depth, .inString)

/-- The scan comes back to where it started and never goes below. -/
structure Balanced (mode : Mode) (t : List Char) : Prop where
  whole : ∀ depth, t.foldl scan (depth, mode) = (depth, mode)
  inside : ∀ depth q, q <+: t → depth ≤ (q.foldl scan (depth, mode)).1

namespace Balanced
variable {mode : Mode} {s t : List Char}

theorem nil : Balanced mode [] where
  whole _ := rfl
  inside depth q hq := by
    rw [List.prefix_nil.mp hq]
    exact Nat.le_refl _

theorem append (hs : Balanced mode s) (ht : Balanced mode t) : Balanced mode (s ++ t) where
  whole depth := by rw [List.foldl_append, hs.whole, ht.whole]
  inside depth q hq := by
    cases List.prefix_or_prefix_of_prefix hq (List.prefix_append s t) with
    | inl h => exact hs.inside depth q h
    | inr h =>
        obtain ⟨r, rfl⟩ := h
        rw [List.prefix_append_right_inj] at hq
        rw [List.foldl_append, hs.whole]
        exact ht.inside depth r hq

theorem singleton {c : Char} (h : ∀ depth, scan (depth, mode) c = (depth, mode)) :
    Balanced mode [c] where
  whole depth := h depth
  inside depth q hq := by
    cases List.prefix_concat_iff.mp (show q <+: [] ++ [c] from hq) with
    | inl hq => rw [hq, List.nil_append, List.foldl_cons, h, List.foldl_nil]
    | inr hq =>
        rw [List.prefix_nil.mp hq]
        exact Nat.le_refl _

theorem of_forall (h : ∀ c ∈ s, ∀ depth, scan (depth, mode) c = (depth, mode)) :
    Balanced mode s := by
  induction s with
  | nil => exact nil
  | cons c s ih =>
      exact (singleton (h c (List.mem_cons_self ..))).append
        (ih fun d hd => h d (List.mem_cons_of_mem _ hd))

/-- A bracket pair, or two quotes, around a balanced text. -/
theorem wrap {inner : Mode} (up : ℕ) {opening closing : Char}
    (hopen : ∀ depth, scan (depth, mode) opening = (depth + up, inner))
    (hs : Balanced inner s)
    (hclose : ∀ depth, scan (depth + up, inner) closing = (depth, mode)) :
    Balanced mode (opening :: (s ++ [closing])) where
  whole depth := by
    rw [List.foldl_cons, hopen, List.foldl_append, hs.whole]
    exact hclose depth
  inside depth q hq := by
    cases q with
    | nil => exact Nat.le_refl _
    | cons c q =>
        obtain ⟨rfl, hrest⟩ := List.cons_prefix_cons.mp hq
        rw [List.foldl_cons, hopen]
        cases List.prefix_concat_iff.mp hrest with
        | inl h =>
            rw [h, List.foldl_append, hs.whole, List.foldl_cons, hclose]
            exact Nat.le_refl _
        | inr h => exact Nat.le_trans (Nat.le_add_right ..) (hs.inside _ q h)

end Balanced

theorem balanced_space {s : List Char} (hs : Space s) : Balanced .outside s := by
  apply Balanced.of_forall
  intro c hc depth
  have h := hs c hc
  simp only [isSpace, Bool.or_eq_true, decide_eq_true_eq] at h
  rcases h with ((rfl | rfl) | rfl) | rfl <;> rfl

theorem balanced_atom {s : List Char} (hs : ∀ c ∈ s, isAtomChar c = true) :
    Balanced .outside s := by
  apply Balanced.of_forall
  intro c hc depth
  have hne : ∀ d, isAtomChar d = false → c ≠ d := by
    intro d hd h
    rw [← h, hs c hc] at hd
    cases hd
  unfold scan
  simp only [hne '"' (by decide), hne '{' (by decide), hne '[' (by decide), hne '}' (by decide),
    hne ']' (by decide), or_self, if_false]

theorem balanced_stringBody {s : List Char} (hs : StringBody s) : Balanced .inString s := by
  have hpair : ∀ c, Balanced .inString ['\\', c] := by
    intro c
    constructor
    · exact fun _ => rfl
    · intro depth q hq
      cases List.prefix_concat_iff.mp (show q <+: ['\\'] ++ [c] from hq) with
      | inl h =>
          rw [h]
          exact Nat.le_refl _
      | inr h =>
          cases List.prefix_concat_iff.mp (show q <+: [] ++ ['\\'] from h) with
          | inl h =>
              rw [h]
              exact Nat.le_refl _
          | inr h =>
              rw [List.prefix_nil.mp h]
              exact Nat.le_refl _
  induction hs with
  | nil => exact .nil
  | plain c s hquote hslash _ _ ih =>
      refine Balanced.append (s := [c]) (.singleton fun depth => ?_) ih
      simp [scan, hquote, hslash]
  | escape c s _ _ ih => exact (hpair c).append ih
  | unicode digits s _ hdigits _ ih =>
      refine (hpair 'u').append (.append (.of_forall fun c hc depth => ?_) ih)
      have hne : ∀ d, d.isAlphanum = false → c ≠ d := by
        intro d hd h
        rw [← h, hdigits c hc] at hd
        cases hd
      simp only [scan, hne '\\' (by decide), hne '"' (by decide), if_false]

theorem balanced_quoted {s : List Char} (hs : StringBody s) : Balanced .outside (quoted s) :=
  .wrap 0 (fun _ => rfl) (balanced_stringBody hs) (fun _ => rfl)

theorem balanced_json {kind : Kind} {t : List Char} (h : Json kind t) : Balanced .outside t := by
  have hcomma : Balanced .outside [','] := .singleton fun _ => rfl
  have hcolon : Balanced .outside [':'] := .singleton fun _ => rfl
  induction h with
  | atom s _ hs => exact balanced_atom hs
  | string s hs => exact balanced_quoted hs
  | emptyArray s hs => exact .wrap 1 (fun _ => rfl) (balanced_space hs) (fun _ => rfl)
  | array s _ ih => exact .wrap 1 (fun _ => rfl) ih (fun _ => rfl)
  | emptyObject s hs => exact .wrap 1 (fun _ => rfl) (balanced_space hs) (fun _ => rfl)
  | object s _ ih => exact .wrap 1 (fun _ => rfl) ih (fun _ => rfl)
  | element a v b ha hb _ ih => exact ((balanced_space ha).append ih).append (balanced_space hb)
  | elements a v b rest ha hb _ _ ih ihrest =>
      exact ((((balanced_space ha).append ih).append (balanced_space hb)).append hcomma).append
        ihrest
  | member a k b c v d ha hk hb hc hd _ ih =>
      exact ((((((balanced_space ha).append (balanced_quoted hk)).append
        (balanced_space hb)).append hcolon).append (balanced_space hc)).append ih).append
        (balanced_space hd)
  | members a k b c v d rest ha hk hb hc hd _ _ ih ihrest =>
      exact ((((((((balanced_space ha).append (balanced_quoted hk)).append
        (balanced_space hb)).append hcolon).append (balanced_space hc)).append ih).append
        (balanced_space hd)).append hcomma).append ihrest

theorem Json.ne_nil {t : List Char} (h : Json .value t) : t ≠ [] := by
  cases h with
  | atom _ hne => exact hne
  | string | emptyArray | array | emptyObject | object => exact List.cons_ne_nil _ _

/-- A cut inside an object leaves its brace open. -/
theorem not_isText_of_cut {t q : List Char} (ht : IsObject t) (hq : q <+: t) (hne : q ≠ t) :
    ¬ IsText q := by
  intro h
  obtain ⟨a, v, b, ha, hv, hb, rfl⟩ := h
  obtain ⟨s, hs, rfl⟩ := ht
  have hbalanced : Balanced .outside s := by
    cases hs with
    | inl h => exact balanced_space h
    | inr h => exact balanced_json h
  have hwhole := (((balanced_space ha).append (balanced_json hv)).append (balanced_space hb)).whole 0
  cases hcut : a ++ v ++ b with
  | nil =>
      have := hv.ne_nil
      simp_all
  | cons c r =>
      rw [hcut] at hq hne hwhole
      obtain ⟨rfl, hr⟩ := List.cons_prefix_cons.mp hq
      have hinner : r <+: s := by
        cases List.prefix_concat_iff.mp hr with
        | inl h => exact absurd (congrArg _ h) hne
        | inr h => exact h
      have hdepth := hbalanced.inside 1 r hinner
      have hopen : (('{' :: r).foldl scan (0, .outside)) = r.foldl scan (1, .outside) := rfl
      rw [hopen] at hwhole
      rw [hwhole] at hdepth
      exact absurd hdepth (by decide)

end DnslessHomelab.JsonText
