import DnslessHomelab.SubstringSearch
import DnslessHomelab.Utf8

/-!
# Lossy decoding of octets

`lossy` reads one scalar value after the other. Where the octets begin no well-formed
sequence it puts one replacement character for as many of them as a well-formed
sequence could begin with, one at least. A newline is no part of any longer sequence,
so that lines can be decoded on their own.
-/
namespace DnslessHomelab.Utf8

/-- The second octet of a sequence of three or four, which depends on the first. -/
def startsWell (b c : UInt8) : Bool :=
  (b = 0xE0 && 0xA0 ≤ c && c ≤ 0xBF) || (0xE1 ≤ b && b ≤ 0xEC && 0x80 ≤ c && c ≤ 0xBF) ||
    (b = 0xED && 0x80 ≤ c && c ≤ 0x9F) || (0xEE ≤ b && b ≤ 0xEF && 0x80 ≤ c && c ≤ 0xBF) ||
    (b = 0xF0 && 0x90 ≤ c && c ≤ 0xBF) || (0xF1 ≤ b && b ≤ 0xF3 && 0x80 ≤ c && c ≤ 0xBF) ||
    (b = 0xF4 && 0x80 ≤ c && c ≤ 0x8F)

def isContinuation (c : UInt8) : Bool := 0x80 ≤ c && c ≤ 0xBF

/-- How many octets one replacement character stands for. -/
def subpart (b : UInt8) : List UInt8 → ℕ
  | [] => 1
  | [c] => if startsWell b c then 2 else 1
  | c :: d :: _ =>
      if startsWell b c then if 0xF0 ≤ b && isContinuation d then 3 else 2 else 1

def replacement : Char := '\uFFFD'

/-- The first character, and how many octets it stands for. -/
def lossyChar (b : UInt8) (bs : List UInt8) : Char × ℕ :=
  match (b :: bs).toByteArray.utf8DecodeChar? 0 with
  | some c => (c, c.utf8Size)
  | none => (replacement, subpart b bs)

def lossyWithin : ℕ → List UInt8 → List Char
  | _, [] => []
  | 0, _ :: _ => []
  | n + 1, b :: bs =>
      (lossyChar b bs).1 :: lossyWithin n ((b :: bs).drop (lossyChar b bs).2)

def lossy (bytes : List UInt8) : List Char := lossyWithin bytes.length bytes

theorem subpart_pos (b : UInt8) (bs : List UInt8) : 0 < subpart b bs := by
  unfold subpart
  split
  · omega
  · split_ifs <;> omega
  · split_ifs <;> omega

theorem subpart_le (b : UInt8) (bs : List UInt8) : subpart b bs ≤ bs.length + 1 := by
  unfold subpart
  split
  · simp
  · split_ifs <;> simp
  · split_ifs <;> simp

/-- A newline continues no sequence. -/
theorem subpart_append_newline (b : UInt8) (bs more : List UInt8) :
    subpart b (bs ++ 10 :: more) = subpart b bs := by
  have hsecond : startsWell b 10 = false := by simp [startsWell]
  match bs with
  | [] =>
      cases more with
      | nil => simp [subpart, hsecond]
      | cons d more => simp [subpart, hsecond]
  | [c] =>
      have hthird : isContinuation 10 = false := by decide
      simp [subpart, hthird]
  | c :: d :: bs => rfl

/-- A sequence in front of a newline does not reach past it. -/
theorem utf8DecodeChar?_append_newline {xs : List UInt8} (hne : xs ≠ []) (hxs : 10 ∉ xs)
    (more : List UInt8) :
    (xs ++ 10 :: more).toByteArray.utf8DecodeChar? 0 = xs.toByteArray.utf8DecodeChar? 0 := by
  ext c
  rw [utf8DecodeChar?_eq_some_iff, utf8DecodeChar?_eq_some_iff]
  by_cases hc : 10 ∈ String.utf8EncodeChar c
  · -- only a newline itself begins with one
    have hnewline : c = '\n' :=
      Char.toNat_inj.mp ((ascii_mem_utf8EncodeChar (b := 10) (by decide)).mp hc)
    have hencode : String.utf8EncodeChar c = [10] := by
      rw [hnewline]
      decide
    rw [hencode]
    cases xs with
    | nil => exact absurd rfl hne
    | cons b xs =>
        have hb : (10 : UInt8) ≠ b := fun h => hxs (h ▸ List.mem_cons_self ..)
        simp [List.cons_prefix_cons, hb]
  · exact SubstringSearch.prefix_append_sep hc xs more

theorem lossyChar_pos (b : UInt8) (bs : List UInt8) : 0 < (lossyChar b bs).2 := by
  unfold lossyChar
  split
  · exact Char.utf8Size_pos _
  · exact subpart_pos b bs

theorem lossyChar_le (b : UInt8) (bs : List UInt8) : (lossyChar b bs).2 ≤ bs.length + 1 := by
  unfold lossyChar
  split
  · rename_i c hc
    have hlen := (utf8DecodeChar?_eq_some_iff.mp hc).length_le
    rwa [String.length_utf8EncodeChar] at hlen
  · exact subpart_le b bs

theorem lossyChar_newline (bs : List UInt8) : lossyChar 10 bs = ('\n', 1) := by
  have hread : (10 :: bs).toByteArray.utf8DecodeChar? 0 = some '\n' := by
    rw [utf8DecodeChar?_eq_some_iff]
    exact ⟨bs, rfl⟩
  unfold lossyChar
  rw [hread]
  rfl

theorem lossyChar_append_newline {b : UInt8} {bs : List UInt8} (h : 10 ∉ b :: bs)
    (more : List UInt8) : lossyChar b (bs ++ 10 :: more) = lossyChar b bs := by
  unfold lossyChar
  rw [subpart_append_newline, ← List.cons_append,
    utf8DecodeChar?_append_newline (List.cons_ne_nil b bs) h]

theorem lossyChar_ne_newline {b : UInt8} (h : b ≠ 10) (bs : List UInt8) :
    (lossyChar b bs).1 ≠ '\n' := by
  unfold lossyChar
  split
  · rename_i c hc
    intro heq
    have heq : c = '\n' := heq
    subst heq
    have hfront : [(10 : UInt8)] <+: b :: bs := utf8DecodeChar?_eq_some_iff.mp hc
    exact h (List.cons_prefix_cons.mp hfront).1.symm
  · show replacement ≠ '\n'
    decide

/-- The budget does not matter once it is long enough. -/
theorem lossyWithin_eq {n m : ℕ} {bytes : List UInt8} (hn : bytes.length ≤ n)
    (hm : bytes.length ≤ m) : lossyWithin n bytes = lossyWithin m bytes := by
  induction n generalizing m bytes with
  | zero =>
      rw [List.eq_nil_of_length_eq_zero (Nat.le_zero.mp hn)]
      cases m <;> rfl
  | succ n ih =>
      cases bytes with
      | nil => cases m <;> rfl
      | cons b bs =>
          have hpos := lossyChar_pos b bs
          rw [List.length_cons] at hn hm
          cases m with
          | zero => omega
          | succ m =>
              rw [lossyWithin, lossyWithin]
              congr 1
              apply ih
              · rw [List.length_drop, List.length_cons]
                omega
              · rw [List.length_drop, List.length_cons]
                omega

@[simp] theorem lossy_nil : lossy [] = [] := rfl

theorem lossy_cons (b : UInt8) (bs : List UInt8) :
    lossy (b :: bs) = (lossyChar b bs).1 :: lossy ((b :: bs).drop (lossyChar b bs).2) := by
  have hpos := lossyChar_pos b bs
  rw [lossy, List.length_cons, lossyWithin, lossy]
  congr 1
  apply lossyWithin_eq
  · rw [List.length_drop, List.length_cons]
    omega
  · exact Nat.le_refl _

/-- Induction along the decoded characters. -/
theorem lossy_induction {P : List UInt8 → Prop} (nil : P [])
    (cons : ∀ b bs, P ((b :: bs).drop (lossyChar b bs).2) → P (b :: bs)) (bytes : List UInt8) :
    P bytes := by
  induction hlen : bytes.length using Nat.strong_induction_on generalizing bytes with
  | h n ih =>
      cases bytes with
      | nil => exact nil
      | cons b bs =>
          have hpos := lossyChar_pos b bs
          apply cons
          apply ih _ _ _ rfl
          rw [List.length_drop]
          simp only [List.length_cons] at hlen ⊢
          omega

/-- Octets without a newline, a newline and the rest are decoded one after the other. -/
theorem lossy_line {xs : List UInt8} (hxs : 10 ∉ xs) (ys : List UInt8) :
    lossy (xs ++ 10 :: ys) = lossy xs ++ '\n' :: lossy ys := by
  induction xs using lossy_induction with
  | nil =>
      rw [List.nil_append, lossy_cons, lossyChar_newline]
      rfl
  | cons b bs ih =>
      have hle := lossyChar_le b bs
      have hchar := lossyChar_append_newline hxs ys
      have hdrop : (b :: (bs ++ 10 :: ys)).drop (lossyChar b bs).2 =
          (b :: bs).drop (lossyChar b bs).2 ++ 10 :: ys := by
        rw [← List.cons_append, List.drop_append_of_le_length hle]
      rw [List.cons_append, lossy_cons, hchar, hdrop, lossy_cons b bs, List.cons_append]
      congr 1
      exact ih fun hm => hxs (List.mem_of_mem_drop hm)

/-- What was encoded is read as it was, also with anything behind it. -/
theorem lossy_encode_append (text : List Char) (more : List UInt8) :
    lossy (encode text ++ more) = text ++ lossy more := by
  induction text with
  | nil => rfl
  | cons c text ih =>
      have hne : String.utf8EncodeChar c ≠ [] := by simp
      obtain ⟨b, bs, hc⟩ := List.exists_cons_of_ne_nil hne
      have hsplit : encode (c :: text) ++ more = b :: (bs ++ (encode text ++ more)) := by
        rw [encode_cons, hc]
        simp
      have hread : (b :: (bs ++ (encode text ++ more))).toByteArray.utf8DecodeChar? 0 = some c := by
        rw [utf8DecodeChar?_eq_some_iff]
        refine ⟨encode text ++ more, ?_⟩
        rw [hc]
        rfl
      have hchar : lossyChar b (bs ++ (encode text ++ more)) = (c, c.utf8Size) := by
        simp only [lossyChar, hread]
      have hlength : (b :: bs).length = c.utf8Size := by
        rw [← hc]
        exact String.length_utf8EncodeChar c
      rw [hsplit, lossy_cons, hchar, ← List.cons_append, ← hlength, List.drop_left, ih]
      rfl

theorem newline_not_mem_lossy {xs : List UInt8} (hxs : 10 ∉ xs) : '\n' ∉ lossy xs := by
  induction xs using lossy_induction with
  | nil => simp
  | cons b bs ih =>
      have hb : b ≠ 10 := fun h => hxs (h ▸ List.mem_cons_self ..)
      rw [lossy_cons, List.mem_cons, not_or]
      constructor
      · exact (lossyChar_ne_newline hb bs).symm
      · exact ih fun hm => hxs (List.mem_of_mem_drop hm)

end DnslessHomelab.Utf8
