import DnslessHomelab.JsonText
import DnslessHomelab.Protocol

/-!
# Messages as JSON texts

What the results on the wire rely on from the JSON library: a message is printed
as one object without control characters, a text is accepted only when it is one
JSON value, and a printed message is read back. `compactJson` is such a library
for messages alone: the internally tagged compact form, with the escapes of the
JSON standard, and a reader that accepts exactly that form.
-/
namespace DnslessHomelab.MessageText
open Protocol JsonText

/-- Documented behaviour of the JSON library on messages. -/
structure Documented (json : SerdeJson) : Prop where
  printed : ∀ msg, ∃ text, json.toString msg = .ok text ∧ IsObject text ∧
    ∀ c ∈ text, 32 ≤ c.toNat
  oneValue : ∀ text msg, json.fromStr text = .ok msg → IsText text
  readsBack : ∀ msg text, json.toString msg = .ok text → json.fromStr text = .ok msg

section Escapes

def hexDigit (n : ℕ) : Char := if n < 10 then Char.ofNat (48 + n) else Char.ofNat (87 + n)

def hexValue (c : Char) : ℕ := if c.toNat < 58 then c.toNat - 48 else c.toNat - 87

def escapeChar (c : Char) : Text :=
  if c = '"' then ['\\', '"']
  else if c = '\\' then ['\\', '\\']
  else if c = '\x08' then ['\\', 'b']
  else if c = '\x0c' then ['\\', 'f']
  else if c = '\n' then ['\\', 'n']
  else if c = '\r' then ['\\', 'r']
  else if c = '\t' then ['\\', 't']
  else if c.toNat < 32 then
    ['\\', 'u', '0', '0', hexDigit (c.toNat / 16), hexDigit (c.toNat % 16)]
  else [c]

def escape (text : Text) : Text := text.flatMap escapeChar

def unescape : Char → Option Char
  | '"' => some '"'
  | '\\' => some '\\'
  | 'b' => some '\x08'
  | 'f' => some '\x0c'
  | 'n' => some '\n'
  | 'r' => some '\r'
  | 't' => some '\t'
  | _ => none

/-- The first character of a string body, and the rest. -/
def readChar : Text → Option (Char × Text)
  | '\\' :: 'u' :: _ :: _ :: high :: low :: rest =>
      some (Char.ofNat (hexValue high * 16 + hexValue low), rest)
  | '\\' :: c :: rest => (unescape c).map fun d => (d, rest)
  | c :: rest => some (c, rest)
  | [] => none

/-- A string body up to its closing quote. -/
def readString : ℕ → Text → Option (Text × Text)
  | _, '"' :: rest => some ([], rest)
  | 0, _ => none
  | n + 1, text =>
      (readChar text).bind fun (c, rest) =>
        (readString n rest).map fun (body, rest) => (c :: body, rest)

theorem hexValue_hexDigit : ∀ n < 16, hexValue (hexDigit n) = n := by decide

theorem hexDigit_isAlphanum : ∀ n < 16, (hexDigit n).isAlphanum = true := by decide

theorem hexDigit_ge : ∀ n < 16, 32 ≤ (hexDigit n).toNat := by decide

/-- What a letter that names a character looks like. -/
theorem unescape_eq_some {c d : Char} (h : unescape d = some c) :
    d ≠ 'u' ∧ 32 ≤ d.toNat ∧ d ∈ "\"\\/bfnrt".toList := by
  unfold unescape at h
  split at h
  · decide
  · decide
  · decide
  · decide
  · decide
  · decide
  · decide
  · cases h

/-- How a character is written: named by a letter, by its number, or as it is. -/
inductive Escaped (c : Char) : Text → Prop
  | letter (d : Char) (hd : unescape d = some c) : Escaped c ['\\', d]
  | number (hcontrol : c.toNat < 32) : Escaped c
      ['\\', 'u', '0', '0', hexDigit (c.toNat / 16), hexDigit (c.toNat % 16)]
  | plain (hquote : c ≠ '"') (hslash : c ≠ '\\') (hcontrol : 32 ≤ c.toNat) : Escaped c [c]

theorem escaped_escapeChar (c : Char) : Escaped c (escapeChar c) := by
  unfold escapeChar
  split_ifs with h₁ h₂ h₃ h₄ h₅ h₆ h₇ h₈
  · exact .letter '"' (congrArg some h₁.symm)
  · exact .letter '\\' (congrArg some h₂.symm)
  · exact .letter 'b' (congrArg some h₃.symm)
  · exact .letter 'f' (congrArg some h₄.symm)
  · exact .letter 'n' (congrArg some h₅.symm)
  · exact .letter 'r' (congrArg some h₆.symm)
  · exact .letter 't' (congrArg some h₇.symm)
  · exact .number h₈
  · exact .plain h₁ h₂ (Nat.not_lt.mp h₈)

theorem readChar_escapeChar (c : Char) (rest : Text) :
    readChar (escapeChar c ++ rest) = some (c, rest) := by
  have hc := escaped_escapeChar c
  generalize escapeChar c = text at hc
  cases hc with
  | letter d hd =>
      have hu := (unescape_eq_some hd).1
      rw [List.cons_append, List.singleton_append, readChar, hd]
      · rfl
      · intro _ _ _ _ _ hletter
        exact absurd hletter hu
  | number hcontrol =>
      have hhigh := hexValue_hexDigit (c.toNat / 16) (by omega)
      have hlow := hexValue_hexDigit (c.toNat % 16) (by omega)
      simp only [List.cons_append, List.nil_append, readChar, hhigh, hlow, Nat.div_add_mod',
        Char.ofNat_toNat]
  | plain hquote hslash =>
      rw [List.singleton_append, readChar]
      · intro _ _ _ _ _ h
        exact absurd h hslash
      · intro _ _ h
        exact absurd h hslash

theorem escapeChar_head (c : Char) (rest : Text) :
    ∃ d tail, escapeChar c ++ rest = d :: tail ∧ d ≠ '"' := by
  have hc := escaped_escapeChar c
  generalize escapeChar c = text at hc
  cases hc with
  | letter | number => exact ⟨_, _, rfl, by decide⟩
  | plain hquote => exact ⟨_, _, rfl, hquote⟩

theorem readString_escape {n : ℕ} (text rest : Text) (hn : text.length ≤ n) :
    readString n (escape text ++ '"' :: rest) = some (text, rest) := by
  induction text generalizing n with
  | nil => cases n <;> rfl
  | cons c text ih =>
      cases n with
      | zero => simp at hn
      | succ n =>
          have hread := readChar_escapeChar c (escape text ++ '"' :: rest)
          obtain ⟨d, tail, htail, hd⟩ := escapeChar_head c (escape text ++ '"' :: rest)
          have hcons : escape (c :: text) ++ '"' :: rest = d :: tail := by
            rw [← htail]
            simp [escape]
          rw [htail] at hread
          rw [hcons]
          have hrest := ih (n := n) (by simpa using hn)
          simp [readString, hread, hrest, hd]

theorem stringBody_append {s t : Text} (hs : StringBody s) (ht : StringBody t) :
    StringBody (s ++ t) := by
  induction hs with
  | nil => exact ht
  | plain c s hquote hslash hcontrol _ ih => exact .plain c _ hquote hslash hcontrol ih
  | escape c s hc _ ih => exact .escape c _ hc ih
  | unicode digits s hlength hdigits _ ih =>
      rw [List.cons_append, List.cons_append, List.append_assoc]
      exact .unicode digits _ hlength hdigits ih

theorem stringBody_escapeChar (c : Char) : StringBody (escapeChar c) := by
  have hc := escaped_escapeChar c
  generalize escapeChar c = text at hc
  cases hc with
  | letter d hd => exact .escape _ _ (unescape_eq_some hd).2.2 .nil
  | number hcontrol =>
      have hhigh := hexDigit_isAlphanum (c.toNat / 16) (by omega)
      have hlow := hexDigit_isAlphanum (c.toNat % 16) (by omega)
      refine .unicode ['0', '0', _, _] [] rfl ?_ .nil
      simp only [List.forall_mem_cons, List.not_mem_nil, false_imp_iff, implies_true, and_true]
      exact ⟨by decide, by decide, hhigh, hlow⟩
  | plain hquote hslash hcontrol => exact .plain _ _ hquote hslash hcontrol .nil

theorem stringBody_escape (text : Text) : StringBody (escape text) := by
  induction text with
  | nil => exact .nil
  | cons c text ih => exact stringBody_append (stringBody_escapeChar c) ih

theorem escapeChar_printable (c : Char) : ∀ d ∈ escapeChar c, 32 ≤ d.toNat := by
  have hc := escaped_escapeChar c
  generalize escapeChar c = text at hc
  cases hc with
  | letter d hd =>
      simp only [List.forall_mem_cons, List.not_mem_nil, false_imp_iff, implies_true, and_true]
      exact ⟨by decide, (unescape_eq_some hd).2.1⟩
  | number hcontrol =>
      have hhigh := hexDigit_ge (c.toNat / 16) (by omega)
      have hlow := hexDigit_ge (c.toNat % 16) (by omega)
      simp only [List.forall_mem_cons, List.not_mem_nil, false_imp_iff, implies_true, and_true]
      exact ⟨by decide, by decide, by decide, by decide, hhigh, hlow⟩
  | plain _ _ hcontrol => simpa using hcontrol

theorem escape_printable (text : Text) : ∀ c ∈ escape text, 32 ≤ c.toNat := by
  intro c h
  obtain ⟨d, -, h⟩ := List.mem_flatMap.mp h
  exact escapeChar_printable d c h

end Escapes

/-- A field of text, as an object member. -/
def field (key value : Text) : Text := quoted key ++ ':' :: quoted (escape value)

def printMessage : Message → Text
  | .ipUpdate u =>
      '{' :: (field "type".toList "ip_update".toList ++ ',' ::
        (field "hostname".toList u.hostname ++ ',' :: field "ip".toList u.ip) ++ ['}'])
  | .heartbeat => '{' :: (field "type".toList "heartbeat".toList ++ ['}'])

/-- The value of the named field at the front, and the rest. -/
def readField (key : Text) (text : Text) : Option (Text × Text) :=
  let front := quoted key ++ [':', '"']
  if front <+: text then readString text.length (text.drop front.length) else none

def readMessage (text : Text) : Option Message :=
  if text = printMessage .heartbeat then some .heartbeat
  else
    (readField "hostname".toList
        (text.drop ('{' :: (field "type".toList "ip_update".toList ++ [','])).length)).bind
      fun (hostname, rest) => (readField "ip".toList (rest.drop 1)).map
        fun (ip, _) => .ipUpdate ⟨hostname, ip⟩

def compactJson : SerdeJson where
  toString msg := .ok (printMessage msg)
  fromStr text :=
    match readMessage text with
    | none => .error "not a message".toList
    | some msg =>
        if printMessage msg = text then .ok msg else .error "not a message".toList

theorem length_le_escape (text : Text) : text.length ≤ (escape text).length := by
  induction text with
  | nil => exact Nat.zero_le _
  | cons c text ih =>
      have hc : 0 < (escapeChar c).length := by
        obtain ⟨d, tail, h, -⟩ := escapeChar_head c []
        rw [List.append_nil] at h
        simp [h]
      simp only [escape, List.flatMap_cons, List.length_append, List.length_cons] at ih ⊢
      omega

theorem readField_field (key value rest : Text) :
    readField key (field key value ++ rest) = some (value, rest) := by
  have hsplit : field key value ++ rest =
      (quoted key ++ [':', '"']) ++ (escape value ++ '"' :: rest) := by
    simp [field, quoted]
  have hlength : value.length ≤ (field key value ++ rest).length := by
    have := length_le_escape value
    rw [hsplit]
    simp only [List.length_append, List.length_cons]
    omega
  unfold readField
  simp only
  rw [if_pos (hsplit ▸ List.prefix_append _ _)]
  conv_lhs => rw [hsplit, List.drop_left]
  exact readString_escape value rest (hsplit ▸ hlength)

theorem readMessage_printMessage (msg : Message) : readMessage (printMessage msg) = some msg := by
  cases msg with
  | heartbeat => rfl
  | ipUpdate u =>
      have hne : printMessage (.ipUpdate u) ≠ printMessage .heartbeat := by
        intro h
        have : some 'i' = some 'h' := congrArg (·[9]?) h
        simp at this
      have hdrop : (printMessage (.ipUpdate u)).drop
          ('{' :: (field "type".toList "ip_update".toList ++ [','])).length =
          field "hostname".toList u.hostname ++ ',' :: (field "ip".toList u.ip ++ ['}']) := by
        have hsplit : printMessage (.ipUpdate u) =
            ('{' :: (field "type".toList "ip_update".toList ++ [','])) ++
              (field "hostname".toList u.hostname ++ ',' :: (field "ip".toList u.ip ++ ['}'])) := by
          simp only [printMessage, List.append_assoc, List.cons_append, List.nil_append]
        rw [hsplit, List.drop_left]
      unfold readMessage
      rw [if_neg hne, hdrop, readField_field]
      simp only [Option.bind_some, List.drop_succ_cons, List.drop_zero, readField_field,
        Option.map_some]

/-- The member names of a message. -/
def IsKey (key : Text) : Prop :=
  key = "type".toList ∨ key = "hostname".toList ∨ key = "ip".toList

/-- They need no escapes. -/
theorem escape_key {key : Text} (h : IsKey key) : escape key = key := by
  rcases h with rfl | rfl | rfl
  · decide
  · decide
  · decide

theorem isObject_printMessage (msg : Message) : IsObject (printMessage msg) := by
  have hspace : Space [] := by simp [Space]
  have hkey : ∀ key, IsKey key → StringBody key := by
    intro key hkey
    exact escape_key hkey ▸ stringBody_escape key
  have hfield : ∀ key, IsKey key → ∀ value, Json .members (field key value) := by
    intro key hmem value
    have := Json.member [] key [] [] _ [] hspace (hkey key hmem) hspace hspace hspace
      (.string _ (stringBody_escape value))
    simpa [field] using this
  have hfields : ∀ key, IsKey key → ∀ value rest,
      Json .members rest → Json .members (field key value ++ ',' :: rest) := by
    intro key hmem value rest hrest
    have := Json.members [] key [] [] _ [] rest hspace (hkey key hmem) hspace hspace hspace
      (.string _ (stringBody_escape value)) hrest
    simpa [field] using this
  cases msg with
  | heartbeat => exact ⟨_, .inr (hfield _ (.inl rfl) _), rfl⟩
  | ipUpdate u =>
      have hip := hfield _ (.inr (.inr rfl)) u.ip
      have hhostname := hfields _ (.inr (.inl rfl)) u.hostname _ hip
      exact ⟨_, .inr (hfields _ (.inl rfl) _ _ hhostname), rfl⟩

theorem field_printable {key : Text} (hkey : IsKey key) (value : Text) :
    ∀ c ∈ field key value, 32 ≤ c.toNat := by
  intro c hc
  simp only [field, quoted, List.mem_append, List.mem_cons, List.not_mem_nil, or_false] at hc
  rcases hc with (rfl | h | rfl) | rfl | rfl | h | rfl
  · decide
  · rw [← escape_key hkey] at h
    exact escape_printable key c h
  · decide
  · decide
  · decide
  · exact escape_printable value c h
  · decide

theorem printMessage_printable (msg : Message) : ∀ c ∈ printMessage msg, 32 ≤ c.toNat := by
  intro c hc
  cases msg with
  | heartbeat =>
      simp only [printMessage, List.mem_cons, List.mem_append, List.not_mem_nil, or_false] at hc
      rcases hc with rfl | h | rfl
      · decide
      · exact field_printable (.inl rfl) _ c h
      · decide
  | ipUpdate u =>
      simp only [printMessage, List.mem_cons, List.mem_append, List.not_mem_nil, or_false] at hc
      rcases hc with rfl | (h | rfl | h | rfl | h) | rfl
      · decide
      · exact field_printable (.inl rfl) _ c h
      · decide
      · exact field_printable (.inr (.inl rfl)) _ c h
      · decide
      · exact field_printable (.inr (.inr rfl)) _ c h
      · decide

theorem documented_compactJson : Documented compactJson where
  printed msg := ⟨_, rfl, isObject_printMessage msg, printMessage_printable msg⟩
  oneValue := by
    intro text msg h
    have htext : printMessage msg = text := by
      unfold compactJson at h
      simp only at h
      split at h
      · cases h
      · split_ifs at h with heq
        cases h
        exact heq
    obtain ⟨s, hs, hobject⟩ := isObject_printMessage msg
    have hvalue : Json .value text := by
      rw [← htext, hobject]
      cases hs with
      | inl h => exact .emptyObject s h
      | inr h => exact .object s h
    exact ⟨[], text, [], by simp [Space], hvalue, by simp [Space], by simp⟩
  readsBack := by
    intro msg text h
    cases h
    unfold compactJson
    simp only [readMessage_printMessage, if_true]

end DnslessHomelab.MessageText
