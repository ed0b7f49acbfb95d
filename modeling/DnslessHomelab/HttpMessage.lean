import Mathlib.Data.List.Basic
import DnslessHomelab.Utf8

/-!
# HTTP messages

A start line, header fields and a body of declared length, as octets: how they are written
and how a peer reads them back. Names of fields are compared without case. A message whose
parts cannot be taken for the octets between them is read back as it was.
-/
namespace DnslessHomelab.HttpMessage
open Utf8 (newline space)

def carriageReturn : UInt8 := 13
def colon : UInt8 := 58

structure Field where
  name : List UInt8
  value : List UInt8
  deriving DecidableEq, Repr

structure Message where
  startLine : List UInt8
  fields : List Field
  body : List UInt8
  deriving DecidableEq, Repr

def line (octets : List UInt8) : List UInt8 := octets ++ [carriageReturn, newline]

def Field.print (f : Field) : List UInt8 := f.name ++ colon :: space :: f.value

def Message.print (m : Message) : List UInt8 :=
  line m.startLine ++ (m.fields.flatMap fun f => line f.print) ++ line [] ++ m.body

/-- The first line, and what follows it. -/
def readLine : List UInt8 → Option (List UInt8 × List UInt8)
  | [] => none
  | b :: rest =>
      if b = carriageReturn ∧ rest.head? = some newline then some ([], rest.tail)
      else (readLine rest).map fun r => (b :: r.1, r.2)

def readField (octets : List UInt8) : Option Field :=
  match octets.dropWhile (· ≠ colon) with
  | [] => none
  | _ :: value => some ⟨octets.takeWhile (· ≠ colon), value.dropWhile (· = space)⟩

/-- The fields up to the empty line. -/
def readFields : ℕ → List UInt8 → Option (List Field × List UInt8)
  | 0, _ => none
  | n + 1, octets =>
      (readLine octets).bind fun r =>
        if r.1 = [] then some ([], r.2)
        else
          (readField r.1).bind fun f =>
            (readFields n r.2).map fun more => (f :: more.1, more.2)

def lower (b : UInt8) : UInt8 := if 65 ≤ b ∧ b ≤ 90 then b + 32 else b

def Field.hasName (f : Field) (name : List UInt8) : Bool := f.name.map lower = name.map lower

def isDigit (b : UInt8) : Bool := 48 ≤ b && b ≤ 57

def readDecimal (digits : List UInt8) : Option ℕ :=
  if digits ≠ [] ∧ digits.all isDigit then
    some (digits.foldl (fun n b => 10 * n + (b.toNat - 48)) 0)
  else none

/-- `Content-Length` -/
def contentLengthName : List UInt8 :=
  [67, 111, 110, 116, 101, 110, 116, 45, 76, 101, 110, 103, 116, 104]

/-- The declared length, unless it is missing or declared twice. -/
def contentLength (fields : List Field) : Option ℕ :=
  match fields.filter (·.hasName contentLengthName) with
  | [f] => readDecimal f.value
  | [] | _ :: _ :: _ => none

/-- One whole message and nothing behind it. -/
def read (octets : List UInt8) : Option Message :=
  (readLine octets).bind fun start =>
    (readFields start.2.length start.2).bind fun head =>
      if contentLength head.1 = some head.2.length then some ⟨start.1, head.1, head.2⟩ else none

structure Field.WellFormed (f : Field) : Prop where
  name : colon ∉ f.name ∧ carriageReturn ∉ f.name
  value : carriageReturn ∉ f.value ∧ f.value.head? ≠ some space

structure Message.WellFormed (m : Message) : Prop where
  startLine : carriageReturn ∉ m.startLine
  fields : ∀ f ∈ m.fields, f.WellFormed
  length : contentLength m.fields = some m.body.length

section Lines

theorem readLine_line {octets : List UInt8} (h : carriageReturn ∉ octets) (rest : List UInt8) :
    readLine (line octets ++ rest) = some (octets, rest) := by
  induction octets with
  | nil => rfl
  | cons b octets ih =>
      obtain ⟨hb, hoctets⟩ := not_or.mp (mt List.mem_cons.mpr h)
      have hnot : ¬ (b = carriageReturn ∧ (line octets ++ rest).head? = some newline) :=
        fun hline => hb hline.1.symm
      change readLine (b :: (line octets ++ rest)) = _
      rw [readLine, if_neg hnot, ih hoctets]
      rfl

theorem readField_print {f : Field} (h : f.WellFormed) : readField f.print = some f := by
  have hname : ∀ b ∈ f.name, decide (b ≠ colon) = true := by
    intro b hb
    simpa using fun heq : b = colon => h.name.1 (heq ▸ hb)
  have hvalue : f.value.dropWhile (· = space) = f.value := by
    cases hv : f.value with
    | nil => rfl
    | cons b rest =>
        have hb : b ≠ space := by
          intro heq
          apply h.value.2
          rw [hv, heq]
          rfl
        rw [List.dropWhile_cons_of_neg (by simpa using hb)]
  have hdrop : f.print.dropWhile (· ≠ colon) = colon :: space :: f.value := by
    rw [Field.print, List.dropWhile_append_of_pos hname]
    exact List.dropWhile_cons_of_neg (by simp)
  have htake : f.print.takeWhile (· ≠ colon) = f.name := by
    rw [Field.print, List.takeWhile_append_of_pos hname, List.takeWhile_cons_of_neg (by simp),
      List.append_nil]
  unfold readField
  simp only [hdrop, htake]
  rw [List.dropWhile_cons_of_pos (by simp), hvalue]

theorem Field.WellFormed.print {f : Field} (h : f.WellFormed) :
    carriageReturn ∉ f.print ∧ f.print ≠ [] := by
  constructor
  · simp only [Field.print, List.mem_append, List.mem_cons, not_or]
    exact ⟨h.name.2, by decide, by decide, h.value.1⟩
  · simp [Field.print]

theorem readFields_print {n : ℕ} {fields : List Field} (h : ∀ f ∈ fields, f.WellFormed)
    (hn : fields.length < n) (rest : List UInt8) :
    readFields n ((fields.flatMap fun f => line f.print) ++ line [] ++ rest) =
      some (fields, rest) := by
  induction fields generalizing n with
  | nil =>
      obtain ⟨n, rfl⟩ := Nat.exists_eq_succ_of_ne_zero (Nat.ne_of_gt hn)
      rfl
  | cons f fields ih =>
      obtain ⟨n, rfl⟩ := Nat.exists_eq_succ_of_ne_zero (Nat.ne_zero_of_lt hn)
      have hf := h f (List.mem_cons_self ..)
      have hrest := ih (n := n) (fun g hg => h g (List.mem_cons_of_mem _ hg))
        (Nat.succ_lt_succ_iff.mp hn)
      rw [List.flatMap_cons, List.append_assoc, List.append_assoc, readFields,
        readLine_line hf.print.1, Option.bind_some]
      dsimp only
      rw [if_neg hf.print.2, readField_print hf, Option.bind_some, ← List.append_assoc, hrest]
      rfl

end Lines

/-- Every field takes a line. -/
theorem length_le_flatMap (fields : List Field) :
    fields.length ≤ (fields.flatMap fun f => line f.print).length := by
  induction fields with
  | nil => exact Nat.zero_le _
  | cons f fields ih =>
      rw [List.flatMap_cons, List.length_append, List.length_cons, line, List.length_append]
      have htwo : [carriageReturn, newline].length = 2 := rfl
      omega

/-- What is written is read back: the head ends where it should, no field is taken for two,
and the body is as long as declared. -/
theorem read_print {m : Message} (h : m.WellFormed) : read m.print = some m := by
  have hstart : readLine m.print =
      some (m.startLine, (m.fields.flatMap fun f => line f.print) ++ line [] ++ m.body) := by
    have hsplit : m.print =
        line m.startLine ++ ((m.fields.flatMap fun f => line f.print) ++ line [] ++ m.body) := by
      simp only [Message.print, List.append_assoc]
    rw [hsplit, readLine_line h.startLine]
  have hfuel : m.fields.length <
      ((m.fields.flatMap fun f => line f.print) ++ line [] ++ m.body).length := by
    have hfields := length_le_flatMap m.fields
    have htwo : (line []).length = 2 := rfl
    rw [List.length_append, List.length_append]
    omega
  unfold read
  rw [hstart, Option.bind_some]
  dsimp only
  rw [readFields_print h.fields hfuel, Option.bind_some]
  dsimp only
  rw [if_pos h.length]

section Decimal

theorem toNat_of_isDigit {c : Char} (h : c.isDigit = true) : 48 ≤ c.toNat ∧ c.toNat ≤ 57 :=
  Char.isDigit_iff_toNat.mp h

/-- A digit is one octet. -/
theorem utf8EncodeChar_of_isDigit {c : Char} (h : c.isDigit = true) :
    String.utf8EncodeChar c = [UInt8.ofNat c.toNat] := by
  obtain ⟨-, hle⟩ := toNat_of_isDigit h
  have hval : c.toNat = c.val.toNat := rfl
  unfold String.utf8EncodeChar
  dsimp only
  rw [if_pos (by omega)]
  rfl

theorem readDecimal_digits {digits : List Char} (hne : digits ≠ [])
    (hdigits : ∀ c ∈ digits, c.isDigit = true) :
    readDecimal (digits.flatMap String.utf8EncodeChar) = some (Nat.ofDigitChars 10 digits 0) := by
  have hmap : digits.flatMap String.utf8EncodeChar =
      digits.map fun c => UInt8.ofNat c.toNat := by
    rw [List.map_eq_flatMap]
    apply List.flatMap_congr
    exact fun c hc => utf8EncodeChar_of_isDigit (hdigits c hc)
  have htoNat : ∀ c ∈ digits, (UInt8.ofNat c.toNat).toNat = c.toNat := by
    intro c hc
    have := toNat_of_isDigit (hdigits c hc)
    rw [UInt8.toNat_ofNat']
    omega
  have hall : (digits.map fun c => UInt8.ofNat c.toNat).all isDigit = true := by
    rw [List.all_eq_true]
    intro b hb
    obtain ⟨c, hc, rfl⟩ := List.mem_map.mp hb
    have := toNat_of_isDigit (hdigits c hc)
    have hc := htoNat c hc
    simp only [isDigit, Bool.and_eq_true, decide_eq_true_eq, UInt8.le_iff_toNat_le, hc]
    exact this
  have hfold : ∀ n, (digits.map fun c => UInt8.ofNat c.toNat).foldl
      (fun n b => 10 * n + (b.toNat - 48)) n = Nat.ofDigitChars 10 digits n := by
    intro n
    rw [List.foldl_map, Nat.ofDigitChars_eq_foldl]
    apply List.foldl_ext
    intro n c hc
    rw [htoNat c hc]
    rfl
  rw [hmap, readDecimal, if_pos ⟨by simpa using hne, hall⟩, hfold]

end Decimal

end DnslessHomelab.HttpMessage
