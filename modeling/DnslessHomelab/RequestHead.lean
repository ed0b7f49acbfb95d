import DnslessHomelab.ClientStream
import DnslessHomelab.StaticFiles
import DnslessHomelab.Utf8Lossy
import DnslessHomelab.Words

/-!
# Reading a request head

Octets arrive in reads of 1 to 512 until they hold an empty line, exceed the limit, or
come to an end. The limit is checked after the terminator, so that a head may end a
little beyond it. The path is taken from the first line, which stands in front of the
terminator, and so does not depend on how the octets were split or on what follows.
-/
namespace DnslessHomelab.RequestHead
open Protocol SubstringSearch LineText ClientStream Words Utf8 StaticFiles

def terminator : Bytes := [13, 10, 13, 10]

def headLimit : ℕ := 16 * 1024

/-- Octets in one read at most. -/
def readSize : ℕ := 512

/-- The buffer when the loop ends, and whether it ended at a terminator. -/
def readHead (fin : ReadEnd) (buf : Bytes) : List Bytes → Bytes × Bool
  | [] =>
      match fin with
      | .endOfStream => (buf, false)
      | .readError => (buf, false)
  | chunk :: reads =>
      if chunk = [] then (buf, false)
      else
        let buf := buf ++ chunk
        if (find terminator buf).isSome then (buf, true)
        else if headLimit < buf.length then (buf, false)
        else readHead fin buf reads

/-- The first of the lines of a text, if it has one. -/
def firstLine? (text : Text) : Option Text :=
  if text = [] then none
  else if '\n' ∈ text then some (chompCr (text.takeWhile (· ≠ '\n')))
  else some text

def requestPath (buf : Bytes) : Option Text :=
  (firstLine? (lossy buf)).map fun requestLine =>
    ((splitWhitespace requestLine)[1]?).getD "/".toList

def readRequestPath (reads : List Bytes) (fin : ReadEnd) : Option Text :=
  let r := readHead fin [] reads
  if r.2 then requestPath r.1 else none

section Loop
variable {fin : ReadEnd} {buf : Bytes} {reads : List Bytes}

theorem readHead_isPrefix (fin : ReadEnd) (buf : Bytes) (reads : List Bytes) :
    (readHead fin buf reads).1 <+: buf ++ reads.flatten := by
  induction reads generalizing buf with
  | nil =>
      rw [List.flatten_nil, List.append_nil]
      cases fin <;> exact List.prefix_refl _
  | cons chunk reads ih =>
      have hrest := ih (buf ++ chunk)
      rw [List.append_assoc] at hrest
      have hstop : buf ++ chunk <+: buf ++ (chunk ++ reads.flatten) :=
        (List.prefix_append_right_inj _).mpr (List.prefix_append _ _)
      rw [List.flatten_cons, readHead]
      dsimp only
      split_ifs
      · exact List.prefix_append _ _
      · exact hstop
      · exact hstop
      · exact hrest

/-- One read beyond the limit at most. -/
theorem readHead_length (hbuf : buf.length ≤ headLimit)
    (hreads : ∀ chunk ∈ reads, chunk.length ≤ readSize) :
    (readHead fin buf reads).1.length ≤ headLimit + readSize := by
  induction reads generalizing buf with
  | nil => cases fin <;> exact hbuf.trans (Nat.le_add_right _ _)
  | cons chunk reads ih =>
      have hchunk := hreads chunk (List.mem_cons_self ..)
      have hlen : (buf ++ chunk).length ≤ headLimit + readSize := by
        rw [List.length_append]
        omega
      rw [readHead]
      dsimp only
      split_ifs with _ _ hlimit
      · exact hbuf.trans (Nat.le_add_right _ _)
      · exact hlen
      · exact hlen
      · exact ih (Nat.not_lt.mp hlimit) fun c hc => hreads c (List.mem_cons_of_mem _ hc)

/-- The loop succeeds exactly when its buffer has a terminator. -/
theorem readHead_found (hbuf : find terminator buf = none) :
    (readHead fin buf reads).2 = (find terminator (readHead fin buf reads).1).isSome := by
  induction reads generalizing buf with
  | nil => cases fin <;> simp [readHead, hbuf]
  | cons chunk reads ih =>
      rw [readHead]
      dsimp only
      split_ifs with _ hfound
      · simp [hbuf]
      · exact hfound.symm
      · simpa using hfound
      · exact ih (by simpa using hfound)

/-- Otherwise all was read, or more than the limit. -/
theorem readHead_exhausted (hreads : ∀ chunk ∈ reads, chunk ≠ [])
    (h : (readHead fin buf reads).2 = false) :
    (readHead fin buf reads).1 = buf ++ reads.flatten ∨
      headLimit < (readHead fin buf reads).1.length := by
  induction reads generalizing buf with
  | nil =>
      left
      cases fin <;> simp [readHead]
  | cons chunk reads ih =>
      rw [readHead, if_neg (hreads chunk (List.mem_cons_self ..))] at h ⊢
      dsimp only at h ⊢
      split_ifs at h ⊢ with hfound hlimit
      · exact .inr hlimit
      · rw [List.flatten_cons, ← List.append_assoc]
        exact ih (fun c hc => hreads c (List.mem_cons_of_mem _ hc)) h

end Loop

section Path
variable {buf : Bytes}

/-- The path in a request line: its second word. -/
def linePath (line : Bytes) : Text :=
  ((splitWhitespace (chompCr (lossy line)))[1]?).getD "/".toList

/-- Only the first line matters. -/
theorem requestPath_eq (h : newline ∈ buf) :
    requestPath buf = some (linePath (buf.takeWhile (· ≠ newline))) := by
  obtain ⟨rest, hbuf, hline⟩ := exists_line h
  generalize buf.takeWhile (· ≠ newline) = line at hbuf hline
  have hlossy : lossy buf = lossy line ++ '\n' :: lossy rest := by
    rw [hbuf]
    exact lossy_line hline rest
  unfold requestPath firstLine?
  rw [hlossy, if_neg (by simp), if_pos (by simp), takeWhile_line (newline_not_mem_lossy hline)]
  rfl

end Path

theorem newline_mem_of_terminator {buf : Bytes} {p : ℕ} (h : find terminator buf = some p) :
    newline ∈ buf := by
  have hocc := (find_eq_some_iff.mp h).2.1
  have hmem : newline ∈ terminator := by decide
  exact List.mem_of_mem_drop (hocc.subset hmem)

section Split
variable {reads : List Bytes} {fin : ReadEnd} {p : ℕ}

theorem ne_nil_of_reads (hreads : ∀ chunk ∈ reads, 1 ≤ chunk.length ∧ chunk.length ≤ readSize) :
    ∀ chunk ∈ reads, chunk ≠ [] := by
  intro chunk hchunk heq
  have hpos := (hreads chunk hchunk).1
  rw [heq, List.length_nil] at hpos
  omega

/-- The loop stops at a terminator or past the limit, so it does not miss an early one. -/
theorem found_of_early (hreads : ∀ chunk ∈ reads, chunk ≠ [])
    (hp : find terminator reads.flatten = some p) (hle : p + 4 ≤ headLimit) :
    (readHead fin [] reads).2 = true := by
  by_contra hnot
  have hnot : (readHead fin [] reads).2 = false := by simpa using hnot
  have hlen : p + terminator.length ≤ (readHead fin [] reads).1.length := by
    have hbound := find_bound hp
    have hfour : terminator.length = 4 := rfl
    cases readHead_exhausted hreads hnot with
    | inl hall =>
        rw [hall]
        exact hbound
    | inr hlimit => omega
  have hfound : (readHead fin [] reads).2 =
      (find terminator (readHead fin [] reads).1).isSome := readHead_found (by decide)
  have hprefix : (readHead fin [] reads).1 <+: reads.flatten := readHead_isPrefix fin [] reads
  rw [find_of_isPrefix hp hprefix hlen, hnot] at hfound
  cases hfound

theorem readRequestPath_of_early (hreads : ∀ chunk ∈ reads, chunk ≠ [])
    (hp : find terminator reads.flatten = some p) (hle : p + 4 ≤ headLimit) :
    readRequestPath reads fin = some (linePath (reads.flatten.takeWhile (· ≠ newline))) := by
  have hsome : (readHead fin [] reads).2 = true := found_of_early hreads hp hle
  have hfound := hsome
  rw [readHead_found (by decide)] at hfound
  obtain ⟨q, hq⟩ := Option.isSome_iff_exists.mp hfound
  have hnewline := newline_mem_of_terminator hq
  have hprefix : (readHead fin [] reads).1 <+: reads.flatten := readHead_isPrefix fin [] reads
  obtain ⟨more, hmore⟩ := hprefix
  unfold readRequestPath
  dsimp only
  rw [if_pos hsome, requestPath_eq hnewline, ← hmore, takeWhile_append_of_mem hnewline]

/-- A terminator that ends further on than is ever read is not found. -/
theorem readRequestPath_of_late (hreads : ∀ chunk ∈ reads, chunk.length ≤ readSize)
    (hlate : ∀ p, find terminator reads.flatten = some p → headLimit + readSize < p + 4) :
    readRequestPath reads fin = none := by
  unfold readRequestPath
  dsimp only
  split_ifs with hsome
  · rw [readHead_found (by decide)] at hsome
    obtain ⟨q, hq⟩ := Option.isSome_iff_exists.mp hsome
    have hprefix : (readHead fin [] reads).1 <+: reads.flatten := readHead_isPrefix fin [] reads
    obtain ⟨more, hmore⟩ := hprefix
    have hwhole := find_append_left hq more
    rw [hmore] at hwhole
    have hlength : (readHead fin [] reads).1.length ≤ headLimit + readSize :=
      readHead_length (Nat.zero_le _) hreads
    have hbound := find_bound hq
    have hfour : terminator.length = 4 := rfl
    have hbeyond := hlate q hwhole
    omega
  · rfl

end Split

/-- However the octets are split: a head that ends within the limit gives the path of
its first line; one that does not end within the limit and one more read gives nothing;
and no more than that is ever read. -/
theorem readRequestPath_split (reads : List Bytes) (fin : ReadEnd)
    (hreads : ∀ chunk ∈ reads, 1 ≤ chunk.length ∧ chunk.length ≤ readSize) :
    (∀ p, find terminator reads.flatten = some p → p + 4 ≤ headLimit →
        readRequestPath reads fin =
          some (linePath (reads.flatten.takeWhile (· ≠ newline)))) ∧
      ((∀ p, find terminator reads.flatten = some p → headLimit + readSize < p + 4) →
        readRequestPath reads fin = none) ∧
      (readHead fin [] reads).1.length ≤ headLimit + readSize := by
  have hsmall : ∀ chunk ∈ reads, chunk.length ≤ readSize := fun chunk hchunk =>
    (hreads chunk hchunk).2
  refine ⟨?_, readRequestPath_of_late hsmall, ?_⟩
  · exact fun p hp hle => readRequestPath_of_early (ne_nil_of_reads hreads) hp hle
  · exact readHead_length (Nat.zero_le _) hsmall

/-- A terminator that straddles two reads, and octets behind it. -/
def straddled : List Bytes :=
  [bytes "GET /pkg/ui.js HTTP/1.1\r\nHost: nas\r\n\r", bytes "\nGET / HTTP/1.1\r\n"]

theorem straddled_path : readRequestPath straddled .readError = some "/pkg/ui.js".toList := by
  have hreads : ∀ chunk ∈ straddled, 1 ≤ chunk.length ∧ chunk.length ≤ readSize := by
    decide +kernel
  have hsplit := (readRequestPath_split straddled .readError hreads).1 34 (by decide +kernel)
    (by decide)
  exact hsplit.trans (by decide +kernel)

section Http
variable (fs : FileSystem) (assetsDir : Bytes)

def statusLine : ℕ → Text
  | 200 => "200 OK".toList
  | 403 => "403 Forbidden".toList
  | 404 => "404 Not Found".toList
  | _ => "500 Internal Server Error".toList

def responseHead (r : Response) : Text :=
  "HTTP/1.1 ".toList ++ statusLine r.status ++ "\r\nContent-Type: ".toList ++ r.mime ++
    "\r\nContent-Length: ".toList ++ decimal r.body.length ++
      "\r\nCache-Control: no-cache\r\nConnection: close\r\n\r\n".toList

/-- What is written back on a connection; nothing when there is no path. -/
def serveHttp (reads : List Bytes) (fin : ReadEnd) : Bytes :=
  match readRequestPath reads fin with
  | none => []
  | some path =>
      let r := serveStatic fs path assetsDir
      Utf8.encode (responseHead r) ++ r.body

/-- The answer to a request does not depend on how its octets are split either. -/
theorem serveHttp_split {reads : List Bytes} {p : ℕ} (fin : ReadEnd)
    (hreads : ∀ chunk ∈ reads, chunk ≠ [])
    (hp : find terminator reads.flatten = some p) (hle : p + 4 ≤ headLimit) :
    serveHttp fs assetsDir reads fin =
      let r := serveStatic fs (linePath (reads.flatten.takeWhile (· ≠ newline))) assetsDir
      Utf8.encode (responseHead r) ++ r.body := by
  unfold serveHttp
  rw [readRequestPath_of_early hreads hp hle]

end Http

end DnslessHomelab.RequestHead
