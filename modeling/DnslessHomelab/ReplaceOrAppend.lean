import DnslessHomelab.SubstringSearch
import DnslessHomelab.Protocol

/-!
# The managed block of a hosts file

`replaceOrAppend` computes the new content of a hosts file from the old one. The
two markers are searched independently and unanchored, exactly as `str::find`
does; nothing checks that the positions found belong to one block. Offsets count
Unicode scalar values where the source counts bytes.
-/
namespace DnslessHomelab.ReplaceOrAppend
open Protocol SubstringSearch LineText

def tag : Text := "dnsless-homelab".toList

def beginMarker (hostname : Text) : Text :=
  "# BEGIN ".toList ++ tag ++ ": ".toList ++ hostname

def endMarker (hostname : Text) : Text :=
  "# END ".toList ++ tag ++ ": ".toList ++ hostname

/-- Begin line, address line and end line. -/
def newBlock (hostname ip : Text) : Text :=
  beginMarker hostname ++ '\n' :: ip ++ ' ' :: hostname ++ '\n' :: endMarker hostname ++ ['\n']

def replaceOrAppend (original hostname ip : Text) : Text :=
  match find (beginMarker hostname) original, find (endMarker hostname) original with
  | some start, some stop =>
      let afterEnd := stop + (endMarker hostname).length
      let tailStart :=
        if (original.drop afterEnd).head? = some '\n' then afterEnd + 1 else afterEnd
      original.take start ++ newBlock hostname ip ++ original.drop tailStart
  | _, _ =>
      if original = [] ∨ original.getLast? = some '\n' then original ++ newBlock hostname ip
      else original ++ '\n' :: newBlock hostname ip

/-- One received update: the name and the address text it maps to. -/
abbrev applyUpdate (content : Text) (u : IpUpdate) : Text :=
  replaceOrAppend content u.hostname u.ip

/-- A run of updates on one content. -/
def applyUpdates (content : Text) (us : List IpUpdate) : Text := us.foldl applyUpdate content

@[simp] theorem applyUpdates_nil (content : Text) : applyUpdates content [] = content := rfl

@[simp] theorem applyUpdates_cons (content : Text) (u : IpUpdate) (us : List IpUpdate) :
    applyUpdates content (u :: us) = applyUpdates (applyUpdate content u) us := rfl

/-- Whatever the file held, the block of the update is in it. -/
theorem newBlock_infix_replaceOrAppend (original hostname ip : Text) :
    newBlock hostname ip <:+: replaceOrAppend original hostname ip := by
  unfold replaceOrAppend
  split
  · exact List.infix_append _ _ _
  · split_ifs
    · exact (List.suffix_append _ _).isInfix
    · exact ((List.suffix_cons _ _).trans (List.suffix_append _ _)).isInfix

section Markers
variable (hostname : Text)

/-- Both markers start with the only `#` of their fixed text. -/
theorem beginMarker_eq :
    beginMarker hostname = '#' :: (" BEGIN dnsless-homelab: ".toList ++ hostname) := rfl

theorem endMarker_eq :
    endMarker hostname = '#' :: (" END dnsless-homelab: ".toList ++ hostname) := rfl

@[simp] theorem beginMarker_ne_nil : beginMarker hostname ≠ [] := by simp [beginMarker_eq]

@[simp] theorem endMarker_ne_nil : endMarker hostname ≠ [] := by simp [endMarker_eq]

@[simp] theorem length_beginMarker : (beginMarker hostname).length = hostname.length + 25 := by
  simp [beginMarker_eq]

@[simp] theorem length_endMarker : (endMarker hostname).length = hostname.length + 23 := by
  simp [endMarker_eq]

theorem beginMarker_append (tail : Text) :
    beginMarker (hostname ++ tail) = beginMarker hostname ++ tail :=
  (List.append_assoc _ _ _).symm

theorem endMarker_append (tail : Text) :
    endMarker (hostname ++ tail) = endMarker hostname ++ tail :=
  (List.append_assoc _ _ _).symm

theorem beginMarker_ne_endMarker : beginMarker hostname ≠ endMarker hostname := by
  intro h
  have := congrArg List.length h
  simp at this

variable {hostname}

theorem newline_not_mem_beginMarker (h : '\n' ∉ hostname) : '\n' ∉ beginMarker hostname := by
  simp [beginMarker_eq, h]

theorem newline_not_mem_endMarker (h : '\n' ∉ hostname) : '\n' ∉ endMarker hostname := by
  simp [endMarker_eq, h]

theorem beginMarker_prefix_iff {g : Text} :
    beginMarker hostname <+: beginMarker g ↔ hostname <+: g :=
  List.prefix_append_right_inj _

theorem endMarker_prefix_iff {g : Text} :
    endMarker hostname <+: endMarker g ↔ hostname <+: g :=
  List.prefix_append_right_inj _

/-- The third characters differ. -/
theorem not_beginMarker_prefix_endMarker {g : Text} :
    ¬ beginMarker hostname <+: endMarker g := by
  intro h
  obtain ⟨t, ht⟩ := h
  have h : some 'B' = some 'E' := congrArg (·[2]?) ht
  simp at h

theorem not_endMarker_prefix_beginMarker {g : Text} :
    ¬ endMarker hostname <+: beginMarker g := by
  intro h
  obtain ⟨t, ht⟩ := h
  have h : some 'E' = some 'B' := congrArg (·[2]?) ht
  simp at h

end Markers

/-- The block as three terminated lines. -/
theorem newBlock_eq_unlines (hostname ip : Text) :
    newBlock hostname ip =
      unlines '\n' [beginMarker hostname, ip ++ ' ' :: hostname, endMarker hostname] := by
  simp [newBlock]

theorem newBlock_eq_concat (hostname ip : Text) :
    ∃ head, newBlock hostname ip = head ++ ['\n'] :=
  ⟨_, rfl⟩

/-- Without both markers the block goes to the end of the closed content. -/
theorem replaceOrAppend_append {original hostname : Text} (ip : Text)
    (h : find (beginMarker hostname) original = none ∨
      find (endMarker hostname) original = none) :
    replaceOrAppend original hostname ip = closed '\n' original ++ newBlock hostname ip := by
  unfold replaceOrAppend
  split
  · next hb he => simp [hb, he] at h
  · unfold closed
    split_ifs <;> simp

/-- The text without a newline at its front. -/
def dropNewline (text : Text) : Text := if text.head? = some '\n' then text.tail else text

/-- With both markers, what stands before the begin and after the end survives. -/
theorem replaceOrAppend_replace {original hostname : Text} (ip : Text) {start stop : ℕ}
    (hb : find (beginMarker hostname) original = some start)
    (he : find (endMarker hostname) original = some stop) :
    replaceOrAppend original hostname ip =
      original.take start ++ newBlock hostname ip ++
        dropNewline (original.drop (stop + (endMarker hostname).length)) := by
  unfold replaceOrAppend dropNewline
  rw [hb, he]
  dsimp only
  by_cases h : (original.drop (stop + (endMarker hostname).length)).head? = some '\n'
  · rw [if_pos h, if_pos h, List.tail_drop]
  · rw [if_neg h, if_neg h]

section Closed
variable {hostname : Text}

theorem terminated_drop {text : Text} (h : Terminated '\n' text) (n : ℕ) :
    Terminated '\n' (text.drop n) := by
  rcases h with rfl | ⟨head, rfl⟩
  · simp [Terminated]
  · rcases Nat.lt_or_ge head.length n with hl | hl
    · exact .inl (List.drop_eq_nil_of_le (by simp; omega))
    · exact .inr ⟨head.drop n, by rw [List.drop_append_of_le_length hl]⟩

theorem terminated_dropNewline {text : Text} (h : Terminated '\n' text) :
    Terminated '\n' (dropNewline text) := by
  unfold dropNewline
  split_ifs
  · rw [← List.drop_one]
    exact terminated_drop h 1
  · exact h

/-- Closing text without its first newline, after a terminated piece. -/
theorem closed_append_dropNewline {text : Text} (h : text.getLast? ≠ some '\n') (head : Text) :
    closed '\n' (head ++ ['\n'] ++ dropNewline text) =
      head ++ ['\n'] ++ dropNewline (text ++ ['\n']) := by
  cases text with
  | nil => simp [dropNewline, closed]
  | cons a text =>
      by_cases ha : a = '\n'
      · subst ha
        have hne : text ≠ [] := by
          intro heq
          subst heq
          simp at h
        rw [List.getLast?_cons_of_ne_nil hne] at h
        simpa [dropNewline] using closed_append hne h (head ++ ['\n'])
      · simpa [dropNewline, ha] using closed_append (List.cons_ne_nil a text) h (head ++ ['\n'])

theorem terminated_replaceOrAppend {original : Text} (h : Terminated '\n' original) (ip : Text) :
    Terminated '\n' (replaceOrAppend original hostname ip) := by
  obtain ⟨block, hblock⟩ := newBlock_eq_concat hostname ip
  cases hb : find (beginMarker hostname) original with
  | none =>
      rw [replaceOrAppend_append ip (.inl hb), hblock]
      exact (terminated_closed _ _).append (.inr ⟨block, rfl⟩)
  | some start =>
      cases he : find (endMarker hostname) original with
      | none =>
          rw [replaceOrAppend_append ip (.inr he), hblock]
          exact (terminated_closed _ _).append (.inr ⟨block, rfl⟩)
      | some stop =>
          rw [replaceOrAppend_replace ip hb he, hblock]
          exact Terminated.append (.inr ⟨_, (List.append_assoc _ _ _).symm⟩)
            (terminated_dropNewline (terminated_drop h _))

/-- A missing last newline is supplied before the update or after it. -/
theorem replaceOrAppend_closed (hn : '\n' ∉ hostname) (original ip : Text) :
    replaceOrAppend (closed '\n' original) hostname ip =
      closed '\n' (replaceOrAppend original hostname ip) := by
  have hfb := find_closed (beginMarker_ne_nil hostname) (newline_not_mem_beginMarker hn) original
  have hfe := find_closed (endMarker_ne_nil hostname) (newline_not_mem_endMarker hn) original
  have happend : find (beginMarker hostname) original = none ∨
      find (endMarker hostname) original = none →
        replaceOrAppend (closed '\n' original) hostname ip =
          closed '\n' (replaceOrAppend original hostname ip) := by
    intro hnone
    obtain ⟨block, hblock⟩ := newBlock_eq_concat hostname ip
    rw [replaceOrAppend_append ip (by rwa [hfb, hfe]), replaceOrAppend_append ip hnone,
      closed_of_terminated (terminated_closed _ _), hblock,
      closed_of_terminated ((terminated_closed _ _).append (.inr ⟨block, rfl⟩))]
  rcases closed_cases '\n' original with ⟨hc, ht⟩ | ⟨hc, hne, hlast⟩
  · rw [hc, closed_of_terminated (terminated_replaceOrAppend ht ip)]
  · cases hb : find (beginMarker hostname) original with
    | none => exact happend (.inl hb)
    | some start =>
        cases he : find (endMarker hostname) original with
        | none => exact happend (.inr he)
        | some stop =>
            have hstart := find_bound hb
            have hstop := find_bound he
            rw [replaceOrAppend_replace ip hb he,
              replaceOrAppend_replace ip (hfb.trans hb) (hfe.trans he), hc]
            obtain ⟨block, hblock⟩ := newBlock_eq_concat hostname ip
            have hrest : (original.drop (stop + (endMarker hostname).length)).getLast? ≠
                some '\n' := by
              rw [List.getLast?_drop]
              split_ifs <;> simp [hlast]
            rw [List.take_append_of_le_length (by omega), List.drop_append_of_le_length hstop,
              hblock, ← List.append_assoc, closed_append_dropNewline hrest]

end Closed

end DnslessHomelab.ReplaceOrAppend
