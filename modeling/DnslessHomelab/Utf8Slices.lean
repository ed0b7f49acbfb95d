import DnslessHomelab.Utf8Lossy

/-!
# Slices of UTF-8 text

Text held as octets and addressed by octet. A slice is refused when one of its ends is
no character boundary. In an encoding the boundaries are the ends of its front parts, and
a search for an encoded pattern stops only at them: the first octet of a sequence
continues none.
-/
namespace DnslessHomelab.Utf8
open SubstringSearch

/-- The text ends at the offset, or the octet there continues no sequence. -/
def isCharBoundary (bytes : List UInt8) (n : ℕ) : Bool :=
  if n = 0 then true
  else
    match bytes[n]? with
    | none => decide (n = bytes.length)
    | some b => !isContinuation b

def sliceTo (bytes : List UInt8) (n : ℕ) : Option (List UInt8) :=
  if isCharBoundary bytes n then some (bytes.take n) else none

def sliceFrom (bytes : List UInt8) (n : ℕ) : Option (List UInt8) :=
  if isCharBoundary bytes n then some (bytes.drop n) else none

def IsUtf8 (bytes : List UInt8) : Prop := (decode bytes).isSome = true

theorem isUtf8_encode (text : List Char) : IsUtf8 (encode text) := by
  rw [IsUtf8, decode_encode]
  rfl

theorem isUtf8_iff {bytes : List UInt8} : IsUtf8 bytes ↔ ∃ text, bytes = encode text := by
  rw [IsUtf8, Option.isSome_iff_exists]
  exact exists_congr fun text => decode_eq_some_iff

theorem isContinuation_ofNat {n : ℕ} :
    isContinuation (UInt8.ofNat n) = true ↔ 128 ≤ n % 256 ∧ n % 256 ≤ 191 := by
  simp [isContinuation, UInt8.le_iff_toNat_le]

theorem not_isContinuation_ofNat {n : ℕ} (h : n % 256 < 128 ∨ 191 < n % 256) :
    isContinuation (UInt8.ofNat n) = false := by
  rw [← Bool.not_eq_true, isContinuation_ofNat]
  omega

/-- One octet that begins the sequence and the others that continue it. -/
theorem utf8EncodeChar_eq_cons (c : Char) : ∃ b bs, String.utf8EncodeChar c = b :: bs ∧
    isContinuation b = false ∧ ∀ d ∈ bs, isContinuation d = true := by
  unfold String.utf8EncodeChar
  simp only
  split_ifs with h₁ h₂ h₃
  · refine ⟨_, [], rfl, not_isContinuation_ofNat ?_, by simp⟩
    omega
  · refine ⟨_, _, rfl, not_isContinuation_ofNat ?_, ?_⟩
    · omega
    · simp only [List.forall_mem_singleton, isContinuation_ofNat]
      omega
  · refine ⟨_, _, rfl, not_isContinuation_ofNat ?_, ?_⟩
    · omega
    · simp only [List.forall_mem_cons, isContinuation_ofNat, List.not_mem_nil, false_imp_iff,
        implies_true, and_true]
      omega
  · refine ⟨_, _, rfl, not_isContinuation_ofNat ?_, ?_⟩
    · omega
    · simp only [List.forall_mem_cons, isContinuation_ofNat, List.not_mem_nil, false_imp_iff,
        implies_true, and_true]
      omega

/-- The octets of a nonempty text begin with one that continues nothing. -/
theorem encode_eq_cons {text : List Char} (hne : text ≠ []) :
    ∃ b bs, encode text = b :: bs ∧ isContinuation b = false := by
  cases text with
  | nil => exact absurd rfl hne
  | cons c text =>
      obtain ⟨b, bs, hc, hb, -⟩ := utf8EncodeChar_eq_cons c
      exact ⟨b, bs ++ encode text, by rw [encode_cons, hc, List.cons_append], hb⟩

theorem encode_prefix_iff {s t : List Char} : encode s <+: encode t ↔ s <+: t := by
  constructor
  · exact prefix_of_encode_prefix
  · intro h
    obtain ⟨r, rfl⟩ := h
    rw [encode_append]
    exact List.prefix_append _ _

/-- The end of a front part is a boundary. -/
theorem isCharBoundary_encode (s t : List Char) :
    isCharBoundary (encode (s ++ t)) (encode s).length = true := by
  unfold isCharBoundary
  split_ifs with hzero
  · rfl
  · rw [encode_append, List.getElem?_append_right (Nat.le_refl _), Nat.sub_self]
    by_cases hne : t = []
    · subst hne
      simp
    · obtain ⟨b, bs, ht, hb⟩ := encode_eq_cons hne
      simp [ht, hb]

theorem sliceTo_encode (s t : List Char) :
    sliceTo (encode (s ++ t)) (encode s).length = some (encode s) := by
  rw [sliceTo, if_pos (isCharBoundary_encode s t), encode_append, List.take_left]

theorem sliceFrom_encode (s t : List Char) :
    sliceFrom (encode (s ++ t)) (encode s).length = some (encode t) := by
  rw [sliceFrom, if_pos (isCharBoundary_encode s t), encode_append, List.drop_left]

example : sliceFrom (encode "é".toList) 1 = none := by decide +kernel

/-- The offset ends a front part of the text. -/
def EndsPart (text : List Char) (n : ℕ) : Prop :=
  ∃ s t, text = s ++ t ∧ n = (encode s).length

theorem EndsPart.isCharBoundary {text : List Char} {n : ℕ} (h : EndsPart text n) :
    n ≤ (encode text).length ∧ Utf8.isCharBoundary (encode text) n = true := by
  obtain ⟨s, t, rfl, rfl⟩ := h
  constructor
  · rw [encode_append, List.length_append]
    exact Nat.le_add_right _ _
  · exact isCharBoundary_encode s t

/-- The search on octets finds what the search on characters finds. -/
theorem find_encode {pat : List Char} (hp : pat ≠ []) (text : List Char) :
    find (encode pat) (encode text) =
      (find pat text).map fun n => (encode (text.take n)).length := by
  have hprefix : ∀ text, encode pat <+: encode text ↔ pat <+: text := fun _ => encode_prefix_iff
  obtain ⟨a, as, hpat, ha⟩ := encode_eq_cons hp
  rw [hpat] at hprefix ⊢
  induction text with
  | nil => simp [find, hp]
  | cons c text ih =>
      obtain ⟨b, bs, hc, -, hbs⟩ := utf8EncodeChar_eq_cons c
      have hnot : a ∉ bs := by
        intro hm
        rw [hbs a hm] at ha
        cases ha
      have hcons := hprefix (c :: text)
      rw [encode_cons, hc, List.cons_append] at hcons ⊢
      rw [find, find, find_append_of_head_not_mem hnot, ih]
      by_cases h : pat <+: c :: text
      · rw [if_pos h, if_pos (hcons.mpr h)]
        rfl
      · rw [if_neg h, if_neg (mt hcons.mp h)]
        simp only [Option.map_map]
        congr 1
        funext n
        simp [hc]
        omega

/-- Behind a pattern that was found, a front part of the text ends. -/
theorem find_behind {pat text : List Char} {n : ℕ} (h : find pat text = some n) :
    ∃ front, text = front ++ text.drop (n + pat.length) ∧
      (encode (text.take n)).length + (encode pat).length = (encode front).length := by
  obtain ⟨front, rest, rfl, rfl⟩ := find_split h
  refine ⟨front ++ pat, ?_, ?_⟩
  · rw [← List.append_assoc, ← List.length_append, List.drop_left]
  · rw [List.take_left, encode_append, List.length_append]

end DnslessHomelab.Utf8
