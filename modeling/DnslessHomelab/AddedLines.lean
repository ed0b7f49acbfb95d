import DnslessHomelab.BlockRewrite
import DnslessHomelab.MessageText
import DnslessHomelab.ClientStream
import DnslessHomelab.Words

/-!
# What a received update adds to the file

The client writes the strings of a message into the file as they are, unless a system
call of the update fails. The lines it writes are those of the block, together with what
shares a line with one of the two markers found; every other line of the new content is
one of the old. A hostname with newlines puts all its pieces but the first into the block
three times. So a message adds nothing but its mapping exactly when its own strings make
one line of two words, as long as nothing stands behind the end marker in the file and no
new line comes of what stands in front of the begin marker.
-/
namespace DnslessHomelab.AddedLines
open Protocol SubstringSearch LineText ReplaceOrAppend ForeignLines Words ClientStream

/-- What stands on the line of the begin marker in front of it, when both are found. -/
def beforeBegin (h c : Text) : Text :=
  match find (beginMarker h) c, find (endMarker h) c with
  | some start, some _ => (cut '\n' (c.take start)).2
  | _, _ => []

/-- What stands on the line of the end marker behind it, when both are found. -/
def afterEnd (h c : Text) : Text :=
  match find (beginMarker h) c, find (endMarker h) c with
  | some _, some stop => (c.drop (stop + (endMarker h).length)).takeWhile (· ≠ '\n')
  | _, _ => []

/-- The lines an update writes. -/
def written (c : Text) (u : IpUpdate) : List Text :=
  lines '\n' (beforeBegin u.hostname c ++ newBlock u.hostname u.ip ++ afterEnd u.hostname c)

/-- The lines of a content that are not lines of the old one. -/
def newLines (c : Text) (ls : List Text) : List Text :=
  ls.filter fun l => !(lines '\n' c).contains l

def IsComment (line : Text) : Prop := line.head? = some '#'

instance (line : Text) : Decidable (IsComment line) := inferInstanceAs (Decidable (_ = _))

/-- One address token and then the name. -/
def Maps (name line : Text) : Prop := ∃ token, splitWhitespace line = [token, name]

/-- At most three lines, at most one of them no comment, and that one maps the name. -/
structure OnlyMapping (name : Text) (added : List Text) : Prop where
  three : added.length ≤ 3
  one : (added.filter (¬ IsComment ·)).length ≤ 1
  maps : ∀ line ∈ added, ¬ IsComment line → Maps name line

/-- The line is a comment or stands in the file already. -/
def Quiet (c line : Text) : Prop := IsComment line ∨ line ∈ lines '\n' c

instance (c line : Text) : Decidable (Quiet c line) :=
  decidable_of_iff (IsComment line ∨ (lines '\n' c).contains line = true) (by simp [Quiet])

/-- The line of the begin marker, with the first piece of the hostname. -/
def firstLine (c : Text) (u : IpUpdate) : Text :=
  beforeBegin u.hostname c ++ beginMarker (firstPiece '\n' u.hostname)

/-- The lines without a marker: the pieces of the address, the last of them with the first
piece of the hostname, and what stands behind the end marker. -/
def plainLines (c : Text) (u : IpUpdate) : List Text :=
  (cut '\n' u.ip).1 ++
    addressLine (firstPiece '\n' u.hostname) (cut '\n' u.ip).2 :: lines '\n' (afterEnd u.hostname c)

def lastLine (u : IpUpdate) : Text := endMarker (firstPiece '\n' u.hostname)

/-- How many of the lines are not in the file. -/
def countNew (c : Text) (ls : List Text) : ℕ := ls.countP fun l => !(lines '\n' c).contains l

/-- The strings of the message do no harm in the file. Each later piece of the hostname is
written three times. -/
structure Harmless (c : Text) (u : IpUpdate) : Prop where
  first : Quiet c (firstLine c u)
  later : ∀ l ∈ laterPieces '\n' u.hostname, Quiet c l
  maps : ∀ l ∈ plainLines c u, Quiet c l ∨ Maps u.hostname l
  single : (plainLines c u).countP (¬ Quiet c ·) ≤ 1
  few : countNew c (firstLine c u :: lastLine u :: plainLines c u) +
    3 * countNew c (laterPieces '\n' u.hostname) ≤ 3

/-- Nothing stands behind the end marker found, and what stands in front of the begin
marker makes no line that matters. -/
def OwnLines (h c : Text) : Prop :=
  afterEnd h c = [] ∧ Quiet c (beforeBegin h c ++ beginMarker h)

/-- The strings of the message make one line: a comment, or two words of which the
hostname is the second. -/
def WellFormed (u : IpUpdate) : Prop :=
  '\n' ∉ addressLine u.hostname u.ip ∧
    (IsComment (addressLine u.hostname u.ip) ∨ Maps u.hostname (addressLine u.hostname u.ip))

/-- `update_hosts_entry` in one step, with the error of the first system call that fails,
if one does; the file then stays as it was. -/
def updateHostsEntry (failure : Option Text) (hosts hostname ip : Text) :
    Text × Except Text Unit :=
  match failure with
  | some e => (hosts, .error e)
  | none => (replaceOrAppend hosts hostname ip, .ok ())

/-- The lines that handling a received line adds to the file. -/
def added (json : SerdeJson) (failure : Option Text) (c raw : Text) : List Text :=
  newLines c (lines '\n' (handleLine json (updateHostsEntry failure) c raw).1)

section Lines
variable {c : Text}

/-- The complete lines of a prefix are lines of the text. -/
theorem mem_lines_of_cut {p more l : Text} (hc : c = p ++ more) (hl : l ∈ (cut '\n' p).1) :
    l ∈ lines '\n' c := by
  obtain ⟨hjoin, hlines, -⟩ := cut_spec '\n' p
  have hsplit : c = unlines '\n' (cut '\n' p).1 ++ ((cut '\n' p).2 ++ more) := by
    rw [← List.append_assoc, hjoin, hc]
  rw [hsplit, lines_unlines_append hlines]
  exact List.mem_append_left _ hl

/-- The lines behind a newline are lines of the text. -/
theorem mem_lines_of_suffix {s rest l : Text} (hc : c = s ++ '\n' :: rest)
    (hl : l ∈ lines '\n' rest) : l ∈ lines '\n' c := by
  have hsplit : c = (s ++ ['\n']) ++ rest := by simp [hc]
  rw [hsplit, lines_append (.inr ⟨s, rfl⟩)]
  exact List.mem_append_right _ hl

theorem lines_line {l : Text} (hl : '\n' ∉ l) (hne : l ≠ []) :
    lines '\n' l = [l] ∧ lines '\n' (l ++ ['\n']) = [l] := by
  constructor
  · simp [lines, cut_remainder hl, hne]
  · have hone : lines '\n' (unlines '\n' [l]) = [l] := lines_unlines (by simpa using hl)
    simpa using hone

/-- Without a newline at its front a text is the rest of its line and further lines. -/
theorem lines_dropNewline (text : Text) :
    ∃ rest, lines '\n' (dropNewline text) =
        lines '\n' (text.takeWhile (· ≠ '\n')) ++ lines '\n' rest ∧
      (rest = [] ∨ ∃ s, text = s ++ '\n' :: rest) := by
  by_cases hmem : '\n' ∈ text
  · obtain ⟨rest, htext, hline⟩ := exists_line hmem
    refine ⟨rest, ?_, .inr ⟨_, htext⟩⟩
    rw [htext, takeWhile_line hline]
    generalize text.takeWhile (· ≠ '\n') = line at hline
    cases line with
    | nil => rfl
    | cons b line =>
        obtain ⟨hopen, hclosed⟩ := lines_line hline (List.cons_ne_nil b line)
        have hb : b ≠ '\n' := fun h => hline (h ▸ List.mem_cons_self ..)
        have hterm : b :: line ++ '\n' :: rest = (b :: line ++ ['\n']) ++ rest := by simp
        have hkeep : dropNewline (b :: line ++ '\n' :: rest) = b :: line ++ '\n' :: rest := by
          simp [dropNewline, hb]
        rw [hkeep, hterm, lines_append (.inr ⟨b :: line, rfl⟩), hclosed, hopen]
  · refine ⟨[], ?_, .inl rfl⟩
    have hfront : text.head? ≠ some '\n' := fun h => hmem (List.mem_of_mem_head? h)
    have hall : text.takeWhile (· ≠ '\n') = text := by
      rw [List.takeWhile_eq_self_iff]
      intro a ha
      exact decide_eq_true fun heq => hmem (heq ▸ ha)
    rw [hall, dropNewline, if_neg hfront]
    simp [lines, cut]

/-- Around the written lines the new content has lines of the old. -/
theorem lines_applyUpdate (c : Text) (u : IpUpdate) :
    ∃ front back, lines '\n' (applyUpdate c u) = front ++ written c u ++ back ∧
      (∀ l ∈ front, l ∈ lines '\n' c) ∧ ∀ l ∈ back, l ∈ lines '\n' c := by
  obtain ⟨block, hblock⟩ := newBlock_eq_concat u.hostname u.ip
  unfold applyUpdate written beforeBegin afterEnd
  have happend : find (beginMarker u.hostname) c = none ∨ find (endMarker u.hostname) c = none →
      lines '\n' (replaceOrAppend c u.hostname u.ip) =
        lines '\n' c ++ lines '\n' (newBlock u.hostname u.ip) := by
    intro hmiss
    rw [replaceOrAppend_append u.ip hmiss, lines_append (terminated_closed _ _), lines_closed]
  cases hb : find (beginMarker u.hostname) c with
  | none => exact ⟨_, [], by simp [happend (.inl hb)], fun _ hl => hl, by simp⟩
  | some start =>
      cases he : find (endMarker u.hostname) c with
      | none => exact ⟨_, [], by simp [happend (.inr he)], fun _ hl => hl, by simp⟩
      | some stop =>
          obtain ⟨hjoin, hlines, -⟩ := cut_spec '\n' (c.take start)
          obtain ⟨rest, hrest, hsuffix⟩ :=
            lines_dropNewline (c.drop (stop + (endMarker u.hostname).length))
          have hterm : Terminated '\n'
              ((cut '\n' (c.take start)).2 ++ newBlock u.hostname u.ip) := by
            rw [hblock, ← List.append_assoc]
            exact .inr ⟨_, rfl⟩
          refine ⟨(cut '\n' (c.take start)).1, lines '\n' rest, ?_, ?_, ?_⟩
          · dsimp only
            rw [replaceOrAppend_replace u.ip hb he]
            conv_lhs => rw [← hjoin]
            rw [List.append_assoc, List.append_assoc, lines_unlines_append hlines,
              ← List.append_assoc (cut '\n' (c.take start)).2, lines_append hterm, hrest,
              lines_append hterm]
            simp only [List.append_assoc]
          · exact fun l hl => mem_lines_of_cut (List.take_append_drop start c).symm hl
          · intro l hl
            cases hsuffix with
            | inl hnil => simp [hnil, lines, cut] at hl
            | inr hs =>
                obtain ⟨s, hs⟩ := hs
                apply mem_lines_of_suffix (s := c.take (stop + (endMarker u.hostname).length) ++ s)
                  _ hl
                rw [List.append_assoc, ← hs, List.take_append_drop]

/-- What is new is among the written lines. -/
theorem newLines_applyUpdate (c : Text) (u : IpUpdate) :
    newLines c (lines '\n' (applyUpdate c u)) = newLines c (written c u) := by
  obtain ⟨front, back, hlines, hfront, hback⟩ := lines_applyUpdate c u
  have hold : ∀ ls : List Text, (∀ l ∈ ls, l ∈ lines '\n' c) → newLines c ls = [] := by
    intro ls hls
    unfold newLines
    rw [List.filter_eq_nil_iff]
    intro l hl
    simpa using hls l hl
  have hsplit : ∀ ks ls : List Text, newLines c (ks ++ ls) = newLines c ks ++ newLines c ls :=
    fun ks ls => List.filter_append ..
  rw [hlines, hsplit, hsplit, hold front hfront, hold back hback, List.append_nil,
    List.nil_append]

end Lines

section Message
variable {u : IpUpdate}

theorem ownLines_nil (h : Text) : OwnLines h [] := by
  constructor
  · simp [afterEnd]
  · have hnil : beforeBegin h [] = [] := by simp [beforeBegin]
    rw [hnil]
    exact .inl rfl

theorem newline_not_mem_beforeBegin (h c : Text) : '\n' ∉ beforeBegin h c := by
  unfold beforeBegin
  split
  · exact (cut_spec _ _).2.2
  · simp

/-- The lines that are written, from the pieces of the strings. -/
theorem written_eq_pieces (c : Text) (u : IpUpdate) :
    written c u = [firstLine c u] ++ laterPieces '\n' u.hostname ++ (cut '\n' u.ip).1 ++
      [addressLine (firstPiece '\n' u.hostname) (cut '\n' u.ip).2] ++
      laterPieces '\n' u.hostname ++ [lastLine u] ++ laterPieces '\n' u.hostname ++
      lines '\n' (afterEnd u.hostname c) := by
  obtain ⟨hjoin, hpieces, hlast⟩ := cut_spec '\n' u.ip
  have hbegin : pieces '\n' (beforeBegin u.hostname c ++ beginMarker u.hostname) =
      firstLine c u :: laterPieces '\n' u.hostname := by
    have hclean : '\n' ∉ beforeBegin u.hostname c ++ beginMarker [] := by
      rw [List.mem_append, not_or]
      exact ⟨newline_not_mem_beforeBegin _ _, newline_not_mem_beginMarker List.not_mem_nil⟩
    have hfront := pieces_append hclean u.hostname
    rw [List.append_assoc, List.append_assoc] at hfront
    exact hfront
  have haddress : pieces '\n' (addressLine u.hostname u.ip) = (cut '\n' u.ip).1 ++
      addressLine (firstPiece '\n' u.hostname) (cut '\n' u.ip).2 ::
        laterPieces '\n' u.hostname := by
    have hclean : '\n' ∉ (cut '\n' u.ip).2 ++ [' '] := by simp [hlast]
    have hfront := pieces_append hclean u.hostname
    rw [List.append_assoc, List.append_assoc] at hfront
    have hsplit : addressLine u.hostname u.ip =
        unlines '\n' (cut '\n' u.ip).1 ++ ((cut '\n' u.ip).2 ++ ' ' :: u.hostname) := by
      rw [← List.append_assoc, hjoin]
      rfl
    rw [hsplit, pieces_unlines_append hpieces]
    exact congrArg _ hfront
  have hend : pieces '\n' (endMarker u.hostname) =
      lastLine u :: laterPieces '\n' u.hostname :=
    pieces_append (newline_not_mem_endMarker List.not_mem_nil) u.hostname
  have hblock : beforeBegin u.hostname c ++ newBlock u.hostname u.ip ++ afterEnd u.hostname c =
      (beforeBegin u.hostname c ++ beginMarker u.hostname) ++ '\n' ::
        (addressLine u.hostname u.ip ++ '\n' ::
          (endMarker u.hostname ++ '\n' :: afterEnd u.hostname c)) := by
    rw [BlockRewrite.newBlock_eq]
    simp
  rw [written, hblock, lines_pieces, lines_pieces, lines_pieces, hbegin, haddress, hend]
  simp

theorem mem_newLines {c l : Text} {ls : List Text} :
    l ∈ newLines c ls ↔ l ∈ ls ∧ l ∉ lines '\n' c := by
  simp [newLines]

/-- What is added in terms of all lines that are written. -/
theorem onlyMapping_newLines_iff (name c : Text) (ls : List Text) :
    OnlyMapping name (newLines c ls) ↔ countNew c ls ≤ 3 ∧
      ls.countP (¬ Quiet c ·) ≤ 1 ∧ ∀ l ∈ ls, Quiet c l ∨ Maps name l := by
  have hcount : (newLines c ls).length = countNew c ls := List.countP_eq_length_filter.symm
  have hloud : (newLines c ls).filter (¬ IsComment ·) = ls.filter (¬ Quiet c ·) := by
    unfold newLines
    rw [List.filter_filter]
    apply List.filter_congr
    intro l _
    simp [Quiet]
  rw [List.countP_eq_length_filter]
  constructor
  · intro h
    refine ⟨hcount ▸ h.three, hloud ▸ h.one, ?_⟩
    intro l hl
    by_cases hquiet : Quiet c l
    · exact .inl hquiet
    · obtain ⟨hloud, hnew⟩ := not_or.mp hquiet
      exact .inr (h.maps l (mem_newLines.mpr ⟨hl, hnew⟩) hloud)
  · intro h
    obtain ⟨hthree, hone, hmaps⟩ := h
    constructor
    · exact hcount ▸ hthree
    · rw [hloud]
      exact hone
    · intro l hl hcomment
      obtain ⟨hl, hnew⟩ := mem_newLines.mp hl
      exact (hmaps l hl).resolve_left (not_or.mpr ⟨hcomment, hnew⟩)

/-- A line that ends with a begin marker has more than two words. -/
theorem not_maps_begin (name front h : Text) : ¬ Maps name (front ++ beginMarker h) := by
  rintro ⟨token, htoken⟩
  have hline : front ++ beginMarker h =
      (front ++ ['#']) ++ ' ' :: ("BEGIN".toList ++ ' ' :: (tag ++ [':'] ++ ' ' :: h)) := by
    rw [List.append_assoc]
    rfl
  have hblank : isWhitespace ' ' = true := by decide
  have hbegin : splitWhitespace "BEGIN".toList = ["BEGIN".toList] := by decide +kernel
  have htag : splitWhitespace (tag ++ [':']) = [tag ++ [':']] := by decide +kernel
  have hhash := splitWhitespace_concat_ne_nil front (c := '#') (by decide)
  rw [hline, splitWhitespace_append_cons hblank, splitWhitespace_append_cons hblank,
    splitWhitespace_append_cons hblank, hbegin, htag] at htoken
  have hlength := congrArg List.length htoken
  have hfront := List.length_pos_of_ne_nil hhash
  simp only [List.length_append, List.length_cons, List.length_nil] at hlength
  omega

/-- A message that is written adds only its mapping exactly when it does no harm. -/
theorem onlyMapping_written_iff (c : Text) (u : IpUpdate) :
    OnlyMapping u.hostname (newLines c (written c u)) ↔ Harmless c u := by
  have hend : Quiet c (lastLine u) := .inl rfl
  have hnotBegin : ¬ Maps u.hostname (firstLine c u) :=
    not_maps_begin u.hostname (beforeBegin u.hostname c) (firstPiece '\n' u.hostname)
  have hnew : countNew c (written c u) =
      countNew c (firstLine c u :: lastLine u :: plainLines c u) +
        3 * countNew c (laterPieces '\n' u.hostname) := by
    rw [written_eq_pieces, plainLines]
    simp only [countNew, List.countP_append, List.countP_cons, List.countP_nil]
    omega
  have hloud : (written c u).countP (¬ Quiet c ·) = [firstLine c u].countP (¬ Quiet c ·) +
      3 * (laterPieces '\n' u.hostname).countP (¬ Quiet c ·) +
        (plainLines c u).countP (¬ Quiet c ·) := by
    rw [written_eq_pieces, plainLines]
    simp only [List.countP_append, List.countP_cons, List.countP_nil, hend]
    simp only [not_true_eq_false, decide_false, Bool.false_eq_true, if_false]
    omega
  have hmem : ∀ l, l ∈ written c u ↔ l = firstLine c u ∨ l = lastLine u ∨
      l ∈ laterPieces '\n' u.hostname ∨ l ∈ plainLines c u := by
    intro l
    rw [written_eq_pieces, plainLines]
    simp only [List.mem_append, List.mem_cons, List.not_mem_nil, or_false]
    tauto
  rw [onlyMapping_newLines_iff, hnew, hloud]
  constructor
  · intro h
    obtain ⟨hthree, hone, hall⟩ := h
    constructor
    · exact (hall _ ((hmem _).mpr (.inl rfl))).resolve_right hnotBegin
    · intro l hl
      by_contra hquiet
      have hpos : 0 < (laterPieces '\n' u.hostname).countP (¬ Quiet c ·) :=
        List.countP_pos_iff.mpr ⟨l, hl, decide_eq_true hquiet⟩
      omega
    · exact fun l hl => hall l ((hmem l).mpr (.inr (.inr (.inr hl))))
    · omega
    · exact hthree
  · intro h
    have hfirst : [firstLine c u].countP (¬ Quiet c ·) = 0 := by simp [h.first]
    have hlater : (laterPieces '\n' u.hostname).countP (¬ Quiet c ·) = 0 := by
      rw [List.countP_eq_zero]
      simpa using h.later
    refine ⟨h.few, ?_, ?_⟩
    · rw [hfirst, hlater]
      have hsingle := h.single
      omega
    · intro l hl
      rcases (hmem l).mp hl with rfl | rfl | hl | hl
      · exact .inl h.first
      · exact .inl hend
      · exact .inl (h.later l hl)
      · exact h.maps l hl

/-- Without newlines the strings are pieces of their own. -/
theorem pieces_of_line (hn : '\n' ∉ addressLine u.hostname u.ip) :
    firstPiece '\n' u.hostname = u.hostname ∧ laterPieces '\n' u.hostname = [] ∧
      cut '\n' u.ip = ([], u.ip) := by
  simp only [addressLine, List.mem_append, List.mem_cons, not_or] at hn
  have hhostname := pieces_eq_cons '\n' u.hostname
  rw [pieces_eq_singleton hn.2.2, List.cons.injEq] at hhostname
  exact ⟨hhostname.1.symm, hhostname.2.symm, cut_remainder hn.1⟩

theorem harmless_of_ownLines {c : Text} (hn : '\n' ∉ addressLine u.hostname u.ip)
    (hc : OwnLines u.hostname c)
    (haddress : IsComment (addressLine u.hostname u.ip) ∨
      Maps u.hostname (addressLine u.hostname u.ip)) : Harmless c u := by
  obtain ⟨hafter, hfirst⟩ := hc
  obtain ⟨hfirstPiece, hlater, hcut⟩ := pieces_of_line hn
  have hplain : plainLines c u = [addressLine u.hostname u.ip] := by
    rw [plainLines, hcut, hafter, hfirstPiece]
    rfl
  constructor
  · rw [firstLine, hfirstPiece]
    exact hfirst
  · simp [hlater]
  · rw [hplain]
    intro l hl
    rw [List.mem_singleton.mp hl]
    exact haddress.imp_left .inl
  · rw [hplain]
    exact List.countP_le_length
  · rw [hplain, hlater]
    exact List.countP_le_length

/-- In an empty file every line is new, so that the pieces of long strings are too many. -/
theorem wellFormed_of_harmless (h : Harmless [] u) : WellFormed u := by
  have hall : ∀ ls : List Text, countNew [] ls = ls.length := by
    intro ls
    rw [countNew, List.countP_eq_length]
    intro l _
    rfl
  have hfew := h.few
  rw [hall, hall] at hfew
  simp only [plainLines, List.length_cons, List.length_append] at hfew
  have hn : '\n' ∉ addressLine u.hostname u.ip := by
    intro hm
    have hlater : 1 ≤ (laterPieces '\n' u.hostname).length + (cut '\n' u.ip).1.length := by
      simp only [addressLine, List.mem_append, List.mem_cons] at hm
      rcases hm with hm | hm | hm
      · have hip := List.length_pos_of_ne_nil (cut_ne_nil hm).1
        omega
      · cases hm
      · have hhostname := List.length_pos_of_ne_nil (cut_ne_nil hm).2
        omega
    omega
  obtain ⟨hfirstPiece, -, hcut⟩ := pieces_of_line hn
  refine ⟨hn, ?_⟩
  have hmaps := h.maps (addressLine u.hostname u.ip) (by
    rw [plainLines, hcut, hfirstPiece]
    exact List.mem_cons_self ..)
  exact hmaps.imp_left fun hquiet => hquiet.resolve_right List.not_mem_nil

/-- Strings without white space in them make two words. -/
theorem wellFormed_of_words (hip : u.ip ≠ []) (hname : u.hostname ≠ [])
    (hips : ∀ c ∈ u.ip, isWhitespace c = false)
    (hnames : ∀ c ∈ u.hostname, isWhitespace c = false) : WellFormed u := by
  have hnewline : isWhitespace '\n' = true := by decide
  constructor
  · intro hm
    simp only [addressLine, List.mem_append, List.mem_cons] at hm
    rcases hm with hm | hm | hm
    · rw [hips _ hm] at hnewline
      cases hnewline
    · cases hm
    · rw [hnames _ hm] at hnewline
      cases hnewline
  · refine .inr ⟨u.ip, ?_⟩
    rw [addressLine, splitWhitespace_cons hip hips (by decide), splitWhitespace_word hname hnames]

end Message

/-- What the client leaves for a line that is an update. -/
theorem hosts_handleLine {json : SerdeJson} {raw : Text} {u : IpUpdate}
    (hraw : json.fromStr raw = .ok (.ipUpdate u)) (failure : Option Text) (c : Text) :
    (handleLine json (updateHostsEntry failure) c raw).1 =
      if failure.isSome then c else applyUpdate c u := by
  cases failure <;> simp [handleLine, hraw, handleMessage, updateHostsEntry]

/-- On every file a message that is accepted adds only its mapping exactly when its update
fails or its strings do no harm there. One that is written does so in every file with the
markers on lines of their own exactly when it is well formed. -/
theorem onlyMapping_iff (json : SerdeJson) (raw : Text) (u : IpUpdate)
    (hraw : json.fromStr raw = .ok (.ipUpdate u)) :
    (∀ failure c, OnlyMapping u.hostname (added json failure c raw) ↔
      failure.isSome ∨ Harmless c u) ∧
      ((∀ c, OwnLines u.hostname c → OnlyMapping u.hostname (added json none c raw)) ↔
        WellFormed u) := by
  have hnone : ∀ c, added json none c raw = newLines c (written c u) := by
    intro c
    rw [added, hosts_handleLine hraw, ← newLines_applyUpdate]
    rfl
  constructor
  · intro failure c
    cases failure with
    | none =>
        rw [hnone, onlyMapping_written_iff]
        simp
    | some e =>
        have hnil : added json (some e) c raw = [] := by
          rw [added, hosts_handleLine hraw]
          simp [newLines]
        rw [hnil]
        simp only [Option.isSome_some, true_or, iff_true]
        exact ⟨Nat.zero_le _, Nat.zero_le _, by simp⟩
  · constructor
    · intro h
      have hnil := h [] (ownLines_nil _)
      rw [hnone, onlyMapping_written_iff] at hnil
      exact wellFormed_of_harmless hnil
    · intro hu c hc
      rw [hnone, onlyMapping_written_iff]
      exact harmless_of_ownLines hu.1 hc hu.2

def localhost : Text := "127.0.0.1 localhost".toList

def plain : IpUpdate := ⟨"nas".toList, "10.0.0.1".toList⟩

theorem plain_adds_mapping : OnlyMapping plain.hostname
    (added MessageText.compactJson none localhost
      (MessageText.printMessage (.ipUpdate plain))) := by
  have hiff := onlyMapping_iff MessageText.compactJson
    (MessageText.printMessage (.ipUpdate plain)) plain (by decide +kernel)
  have hwell : WellFormed plain := by
    apply wellFormed_of_words
    · decide
    · decide
    · simp [plain, isWhitespace]
    · simp [plain, isWhitespace]
  apply hiff.2.mpr hwell
  constructor
  · decide +kernel
  · exact .inl (by decide +kernel)

/-- A hostname with a second line in it. -/
def twoLines : IpUpdate := ⟨"nas\n6.6.6.6 bank".toList, "10.0.0.1".toList⟩

/-- What the client adds when that message is written. -/
def addedByTwoLines : List Text :=
  added MessageText.compactJson none localhost (MessageText.printMessage (.ipUpdate twoLines))

theorem twoLines_adds_bank :
    MessageText.compactJson.fromStr (MessageText.printMessage (.ipUpdate twoLines)) =
        .ok (.ipUpdate twoLines) ∧
      "6.6.6.6 bank".toList ∈ addedByTwoLines ∧
      ¬ OnlyMapping twoLines.hostname addedByTwoLines := by
  refine ⟨by decide +kernel, by decide +kernel, ?_⟩
  intro h
  have hsix : addedByTwoLines.length = 6 := by decide +kernel
  have hthree := h.three
  omega

end DnslessHomelab.AddedLines
