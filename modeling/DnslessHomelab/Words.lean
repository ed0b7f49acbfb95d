import DnslessHomelab.Protocol

/-!
# Words of a text

Text cut at white space, as `split_whitespace` does: runs of white space separate, and
none at the ends makes an empty word.
-/
namespace DnslessHomelab.Words
open Protocol

/-- The characters with the property White_Space. -/
def isWhitespace (c : Char) : Bool :=
  (9 ≤ c.toNat && c.toNat ≤ 13) || (0x2000 ≤ c.toNat && c.toNat ≤ 0x200a) ||
    [0x20, 0x85, 0xa0, 0x1680, 0x2028, 0x2029, 0x202f, 0x205f, 0x3000].contains c.toNat

def splitWhitespace (text : Text) : List Text :=
  (text.splitOnP isWhitespace).filter (· ≠ [])

/-- White space separates the words on its two sides. -/
theorem splitWhitespace_append_cons {c : Char} (hc : isWhitespace c = true) (front rest : Text) :
    splitWhitespace (front ++ c :: rest) = splitWhitespace front ++ splitWhitespace rest := by
  unfold splitWhitespace
  rw [List.splitOnP_append_cons front rest hc, List.filter_append]

theorem splitWhitespace_word {word : Text} (hne : word ≠ [])
    (hword : ∀ c ∈ word, isWhitespace c = false) : splitWhitespace word = [word] := by
  unfold splitWhitespace
  rw [List.splitOnP_eq_singleton (by simpa using hword)]
  simp [hne]

/-- A word in front of white space. -/
theorem splitWhitespace_cons {word : Text} (hne : word ≠ [])
    (hword : ∀ c ∈ word, isWhitespace c = false) {c : Char} (hc : isWhitespace c = true)
    (rest : Text) : splitWhitespace (word ++ c :: rest) = word :: splitWhitespace rest := by
  rw [splitWhitespace_append_cons hc, splitWhitespace_word hne hword, List.singleton_append]

/-- A character that is no white space belongs to a word. -/
theorem splitWhitespace_concat_ne_nil (front : Text) {c : Char} (hc : isWhitespace c = false) :
    splitWhitespace (front ++ [c]) ≠ [] := by
  unfold splitWhitespace
  induction front with
  | nil =>
      rw [List.nil_append, List.splitOnP_cons_eq_if_modifyHead]
      simp [hc]
  | cons d front ih =>
      rw [List.cons_append, List.splitOnP_cons_eq_if_modifyHead]
      cases hd : isWhitespace d with
      | true => simpa using ih
      | false =>
          -- the character goes to the first piece, which is no longer empty
          cases hpieces : (front ++ [c]).splitOnP isWhitespace with
          | nil => exact absurd hpieces (List.splitOnP_ne_nil _ _)
          | cons piece later => simp

end DnslessHomelab.Words
