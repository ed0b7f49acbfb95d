import DnslessHomelab.ReplaceOrAppend
import DnslessHomelab.Utf8Slices

/-!
# The managed block, octet by octet

`replaceOrAppend` on the octets of its arguments, as the source computes it: offsets
count octets, and a slice at an offset that is no character boundary is a panic, here
`none`. On encoded texts no slice panics, and the result is the encoding of what the
function on texts gives.
-/
namespace DnslessHomelab.HostsBytes
open Protocol SubstringSearch Utf8

def tag : Bytes := encode "dnsless-homelab".toList

def beginMarker (hostname : Bytes) : Bytes :=
  encode "# BEGIN ".toList ++ tag ++ encode ": ".toList ++ hostname

def endMarker (hostname : Bytes) : Bytes :=
  encode "# END ".toList ++ tag ++ encode ": ".toList ++ hostname

def newBlock (hostname ip : Bytes) : Bytes :=
  beginMarker hostname ++ newline :: ip ++ space :: hostname ++
    newline :: endMarker hostname ++ [newline]

/-- Where the text behind the end marker begins; a newline there is consumed. -/
def tailStart (original : Bytes) (afterEnd : ℕ) : Option ℕ :=
  (sliceFrom original afterEnd).map fun tail =>
    if tail.head? = some newline then afterEnd + 1 else afterEnd

def replaceOrAppend (original hostname ip : Bytes) : Option Bytes :=
  match find (beginMarker hostname) original, find (endMarker hostname) original with
  | some start, some stop =>
      let afterEnd := stop + (endMarker hostname).length
      (tailStart original afterEnd).bind fun tailStart =>
        (sliceTo original start).bind fun front =>
          (sliceFrom original tailStart).map fun back => front ++ newBlock hostname ip ++ back
  | _, _ =>
      if original = [] ∨ original.getLast? = some newline then
        some (original ++ newBlock hostname ip)
      else some (original ++ newline :: newBlock hostname ip)

section Encoded
variable (original hostname ip : Text)

theorem encode_newline (text : Text) : encode ('\n' :: text) = newline :: encode text := rfl

theorem beginMarker_encode :
    beginMarker (encode hostname) = encode (ReplaceOrAppend.beginMarker hostname) := by
  unfold beginMarker ReplaceOrAppend.beginMarker tag ReplaceOrAppend.tag
  generalize "# BEGIN ".toList = front, "dnsless-homelab".toList = name, ": ".toList = colon
  simp only [encode_append]

theorem endMarker_encode :
    endMarker (encode hostname) = encode (ReplaceOrAppend.endMarker hostname) := by
  unfold endMarker ReplaceOrAppend.endMarker tag ReplaceOrAppend.tag
  generalize "# END ".toList = front, "dnsless-homelab".toList = name, ": ".toList = colon
  simp only [encode_append]

theorem newBlock_encode :
    newBlock (encode hostname) (encode ip) = encode (ReplaceOrAppend.newBlock hostname ip) := by
  have hspace : ∀ text, encode (' ' :: text) = space :: encode text := fun _ => rfl
  simp only [newBlock, ReplaceOrAppend.newBlock, encode_append, encode_newline, hspace,
    beginMarker_encode, endMarker_encode, encode_nil]

variable {original hostname ip}

/-- A newline is one octet, and no part of another character. -/
theorem head?_encode {text : Text} :
    (encode text).head? = some newline ↔ text.head? = some '\n' := by
  cases text with
  | nil => simp
  | cons c text =>
      rw [List.head?_cons, Option.some.injEq]
      constructor
      · intro h
        rw [encode_cons, List.head?_append_of_ne_nil _ (by simp)] at h
        have hc := (ascii_mem_utf8EncodeChar (by decide)).mp (List.mem_of_mem_head? h)
        exact Char.toNat_inj.mp hc
      · intro h
        subst h
        rfl

theorem getLast?_encode {text : Text} :
    (encode text).getLast? = some newline ↔ text.getLast? = some '\n' := by
  induction text using List.reverseRecOn with
  | nil => simp
  | append_singleton text c _ =>
      rw [List.getLast?_concat, Option.some.injEq, encode_append]
      constructor
      · intro h
        rw [List.getLast?_append_of_ne_nil _ (by simp)] at h
        rw [encode_cons, encode_nil, List.append_nil] at h
        have hc := (ascii_mem_utf8EncodeChar (by decide)).mp (List.mem_of_getLast? h)
        exact Char.toNat_inj.mp hc
      · intro h
        subst h
        exact List.getLast?_concat

/-- The text behind the end marker is left without a newline at its front. -/
theorem tailStart_encode (front tail : Text) :
    ∃ s, front ++ tail = s ++ ReplaceOrAppend.dropNewline tail ∧
      tailStart (encode (front ++ tail)) (encode front).length = some (encode s).length := by
  unfold tailStart ReplaceOrAppend.dropNewline
  rw [sliceFrom_encode, Option.map_some]
  by_cases h : tail.head? = some '\n'
  · obtain ⟨rest, rfl⟩ := List.head?_eq_some_iff.mp h
    refine ⟨front ++ ['\n'], ?_, ?_⟩
    · simp
    · rw [if_pos (head?_encode.mpr h), encode_append, List.length_append]
      rfl
  · refine ⟨front, ?_, ?_⟩
    · rw [if_neg h]
    · rw [if_neg (mt head?_encode.mp h)]

/-- Without both markers the block goes behind the content, on a line of its own. -/
theorem append_encode (original block : Text) :
    (if encode original = [] ∨ (encode original).getLast? = some newline then
        some (encode original ++ encode block)
      else some (encode original ++ newline :: encode block)) =
      some (encode (LineText.closed '\n' original ++ block)) := by
  unfold LineText.closed
  simp only [encode_eq_nil, getLast?_encode]
  split_ifs
  · rw [encode_append]
  · rw [encode_append, encode_append, List.append_assoc]
    rfl

/-- No slice panics, and the octets are those of the new text. -/
theorem replaceOrAppend_encode (original hostname ip : Text) :
    replaceOrAppend (encode original) (encode hostname) (encode ip) =
      some (encode (ReplaceOrAppend.replaceOrAppend original hostname ip)) := by
  have hbegin := ReplaceOrAppend.beginMarker_ne_nil hostname
  have hend := ReplaceOrAppend.endMarker_ne_nil hostname
  unfold replaceOrAppend
  rw [beginMarker_encode, endMarker_encode, newBlock_encode, find_encode hbegin, find_encode hend]
  cases hb : find (ReplaceOrAppend.beginMarker hostname) original with
  | none =>
      rw [ReplaceOrAppend.replaceOrAppend_append ip (.inl hb)]
      exact append_encode original _
  | some start =>
      cases he : find (ReplaceOrAppend.endMarker hostname) original with
      | none =>
          rw [ReplaceOrAppend.replaceOrAppend_append ip (.inr he)]
          exact append_encode original _
      | some stop =>
          rw [ReplaceOrAppend.replaceOrAppend_replace ip hb he]
          obtain ⟨front, hsplit, hafter⟩ := find_behind he
          have hfront := sliceTo_encode (original.take start) (original.drop start)
          rw [List.take_append_drop] at hfront
          generalize original.drop (stop + (ReplaceOrAppend.endMarker hostname).length) =
            tail at hsplit ⊢
          obtain ⟨s, hs, htail⟩ := tailStart_encode front tail
          have hback := sliceFrom_encode s (ReplaceOrAppend.dropNewline tail)
          rw [← hs, ← hsplit] at hback
          rw [← hsplit] at htail
          simp only [Option.map_some, hafter, htail, Option.bind_some, hfront, hback]
          rw [encode_append, encode_append]

end Encoded

/-- On UTF-8 every offset is a character boundary of the text, no slice panics, and the
result is UTF-8. -/
theorem slices_defined (original hostname ip : Bytes) (horiginal : IsUtf8 original)
    (hhostname : IsUtf8 hostname) (hip : IsUtf8 ip) :
    (∀ start stop, find (beginMarker hostname) original = some start →
      find (endMarker hostname) original = some stop →
      ∃ tail, tailStart original (stop + (endMarker hostname).length) = some tail ∧
        ∀ offset ∈ [start, stop + (endMarker hostname).length, tail],
          offset ≤ original.length ∧ isCharBoundary original offset = true) ∧
      ∃ result, replaceOrAppend original hostname ip = some result ∧ IsUtf8 result := by
  obtain ⟨original, rfl⟩ := isUtf8_iff.mp horiginal
  obtain ⟨hostname, rfl⟩ := isUtf8_iff.mp hhostname
  obtain ⟨ip, rfl⟩ := isUtf8_iff.mp hip
  constructor
  · intro start stop hb he
    rw [beginMarker_encode, find_encode (ReplaceOrAppend.beginMarker_ne_nil hostname)] at hb
    rw [endMarker_encode, find_encode (ReplaceOrAppend.endMarker_ne_nil hostname)] at he
    obtain ⟨m, -, rfl⟩ := Option.map_eq_some_iff.mp hb
    obtain ⟨n, hn, rfl⟩ := Option.map_eq_some_iff.mp he
    obtain ⟨front, hsplit, hafter⟩ := find_behind hn
    generalize original.drop (n + (ReplaceOrAppend.endMarker hostname).length) =
      tail at hsplit
    obtain ⟨s, hs, htail⟩ := tailStart_encode front tail
    rw [← hsplit] at hs htail
    have hstartPart : EndsPart original (encode (original.take m)).length :=
      ⟨_, _, (List.take_append_drop m original).symm, rfl⟩
    have hafterPart : EndsPart original (encode front).length := ⟨_, _, hsplit, rfl⟩
    have htailPart : EndsPart original (encode s).length := ⟨_, _, hs, rfl⟩
    rw [endMarker_encode, hafter]
    refine ⟨(encode s).length, htail, ?_⟩
    simp only [List.forall_mem_cons, List.not_mem_nil, false_imp_iff, implies_true, and_true]
    exact ⟨hstartPart.isCharBoundary, hafterPart.isCharBoundary, htailPart.isCharBoundary⟩
  · exact ⟨_, replaceOrAppend_encode original hostname ip, isUtf8_encode _⟩

/-- The end marker stands in front of the begin marker, with which the file ends. -/
def swapped : Bytes :=
  encode "é# END dnsless-homelab: naß\nü\n# BEGIN dnsless-homelab: naß".toList

theorem swapped_slices_defined :
    find (beginMarker (encode "naß".toList)) swapped = some 33 ∧
      find (endMarker (encode "naß".toList)) swapped = some 2 ∧
      ∃ result, replaceOrAppend swapped (encode "naß".toList) (encode "10.0.0.1".toList) =
        some result ∧ IsUtf8 result := by
  have hdefined := slices_defined swapped (encode "naß".toList) (encode "10.0.0.1".toList)
    (isUtf8_encode _) (isUtf8_encode _) (isUtf8_encode _)
  refine ⟨?_, ?_, hdefined.2⟩
  · decide +kernel
  · decide +kernel

end DnslessHomelab.HostsBytes
