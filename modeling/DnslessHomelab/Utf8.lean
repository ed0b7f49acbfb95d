import Mathlib.Data.List.Infix

/-!
# UTF-8 on lists of octets

`decode` reads one scalar value after the other and refuses the first ill-formed
sequence, by structural recursion on a length budget so that it evaluates. It
accepts exactly the encodings. A newline octet occurs in an encoding only as the
encoding of a newline.
-/
namespace DnslessHomelab.Utf8

/-! The octets of a newline and of a space. -/

def newline : UInt8 := 10
def space : UInt8 := 32

def encode (text : List Char) : List UInt8 := text.flatMap String.utf8EncodeChar

def decodeWithin : ℕ → List UInt8 → Option (List Char)
  | _, [] => some []
  | 0, _ :: _ => none
  | n + 1, b :: bs =>
      match (b :: bs).toByteArray.utf8DecodeChar? 0 with
      | none => none
      | some c => (decodeWithin n ((b :: bs).drop c.utf8Size)).map (c :: ·)

def decode (bytes : List UInt8) : Option (List Char) := decodeWithin bytes.length bytes

@[simp] theorem encode_nil : encode [] = [] := rfl

@[simp] theorem encode_cons (c : Char) (text : List Char) :
    encode (c :: text) = String.utf8EncodeChar c ++ encode text := rfl

@[simp] theorem encode_append (s t : List Char) : encode (s ++ t) = encode s ++ encode t := by
  simp [encode]

theorem encode_eq_nil {text : List Char} : encode text = [] ↔ text = [] := by
  cases text with
  | nil => simp
  | cons c text => simp

/-- A scalar value is read exactly where its encoding stands. -/
theorem utf8DecodeChar?_eq_some_iff {bytes : List UInt8} {c : Char} :
    bytes.toByteArray.utf8DecodeChar? 0 = some c ↔ String.utf8EncodeChar c <+: bytes := by
  constructor
  · intro h
    obtain ⟨l, hl⟩ := ByteArray.exists_of_utf8DecodeChar?_eq_some h
    have hbytes := congrArg (·.data.toList) hl
    exact ⟨l.data.toList, by simpa using hbytes.symm⟩
  · intro h
    obtain ⟨rest, rfl⟩ := h
    rw [List.toByteArray_append]
    exact ByteArray.utf8DecodeChar?_utf8EncodeChar_append

theorem decodeWithin_encode {n : ℕ} {text : List Char} (h : (encode text).length ≤ n) :
    decodeWithin n (encode text) = some text := by
  induction text generalizing n with
  | nil => cases n <;> rfl
  | cons c text ih =>
      have hpos : 0 < (String.utf8EncodeChar c).length := by
        simpa using c.utf8Size_pos
      rw [encode_cons, List.length_append] at h
      cases n with
      | zero => omega
      | succ n =>
          have hread : (String.utf8EncodeChar c ++ encode text).toByteArray.utf8DecodeChar? 0 =
              some c := utf8DecodeChar?_eq_some_iff.mpr (List.prefix_append _ _)
          have hdrop : (String.utf8EncodeChar c ++ encode text).drop c.utf8Size =
              encode text := by
            rw [← String.length_utf8EncodeChar, List.drop_left]
          rw [encode_cons]
          cases hb : String.utf8EncodeChar c ++ encode text with
          | nil => simp at hb
          | cons b bs =>
              rw [hb] at hread hdrop
              simp only [decodeWithin, hread, hdrop, ih (n := n) (by omega), Option.map_some]

@[simp] theorem decode_encode (text : List Char) : decode (encode text) = some text :=
  decodeWithin_encode (Nat.le_refl _)

/-- Only encodings are accepted. -/
theorem encode_of_decodeWithin {n : ℕ} {bytes : List UInt8} {text : List Char}
    (h : decodeWithin n bytes = some text) : encode text = bytes := by
  induction n generalizing bytes text with
  | zero =>
      cases bytes with
      | nil =>
          cases h
          rfl
      | cons b bs => cases h
  | succ n ih =>
      cases bytes with
      | nil =>
          cases h
          rfl
      | cons b bs =>
          unfold decodeWithin at h
          split at h
          · cases h
          · rename_i c hc
            obtain ⟨rest, hrest, rfl⟩ := Option.map_eq_some_iff.mp h
            obtain ⟨l, hl⟩ := utf8DecodeChar?_eq_some_iff.mp hc
            rw [encode_cons, ih hrest, ← hl, ← String.length_utf8EncodeChar, List.drop_left]

theorem decode_eq_some_iff {bytes : List UInt8} {text : List Char} :
    decode bytes = some text ↔ bytes = encode text := by
  constructor
  · exact fun h => (encode_of_decodeWithin h).symm
  · intro heq
    subst heq
    exact decode_encode text

/-- Cutting an encoding at a boundary cuts the text. -/
theorem prefix_of_encode_prefix {s t : List Char} (h : encode s <+: encode t) : s <+: t := by
  obtain ⟨r, hr⟩ := h
  apply List.isPrefix_of_utf8Encode_append_eq_utf8Encode r.toByteArray
  unfold List.utf8Encode
  rw [← List.toByteArray_append]
  exact congrArg List.toByteArray hr

/-- Octets of a multi-octet sequence lie above the ASCII range. -/
theorem ascii_mem_utf8EncodeChar {c : Char} {b : UInt8} (hb : b.toNat < 128) :
    b ∈ String.utf8EncodeChar c ↔ c.toNat = b.toNat := by
  have hval : c.toNat = c.val.toNat := rfl
  rw [hval]
  unfold String.utf8EncodeChar
  simp only
  split_ifs with h₁ h₂ h₃
  all_goals simp only [List.mem_cons, List.not_mem_nil, or_false, ← UInt8.toNat_inj,
    UInt8.toNat_ofNat']
  · omega
  · omega
  · omega
  · omega

theorem newline_mem_encode {text : List Char} : newline ∈ encode text ↔ '\n' ∈ text := by
  unfold newline
  have hchar : ∀ c : Char, c.toNat = 10 ↔ c = '\n' :=
    fun c => Char.toNat_inj (c := c) (d := '\n')
  simp [encode, ascii_mem_utf8EncodeChar, hchar]

end DnslessHomelab.Utf8
