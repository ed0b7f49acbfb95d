import DnslessHomelab.HttpMessage
import DnslessHomelab.RequestHead

/-!
# One exchange with the admin server

What `serve_http` writes is an HTTP message that a peer reads back whole, whatever the path
and the files. And every file that stands plainly below the assets root is served at its
path: the request found in the octets, the path walked from the root, and the content read
back by the peer.
-/
namespace DnslessHomelab.HttpExchange
open Protocol hiding Message
open FileTree StaticFiles RequestHead ClientStream Words
open HttpMessage (Field Message carriageReturn)
open Utf8 (newline space)

def field (name : String) (value : Text) : Field := ⟨bytes name, Utf8.encode value⟩

/-- The message that a response is sent as. -/
def message (r : Response) : Message where
  startLine := Utf8.encode ("HTTP/1.1 ".toList ++ statusLine r.status)
  fields := [field "Content-Type" r.mime, field "Content-Length" (decimal r.body.length),
    field "Cache-Control" "no-cache".toList, field "Connection" "close".toList]
  body := r.body

/-- The mime types that are ever sent. -/
def Sent (r : Response) : Prop :=
  r.status ∈ [200, 403, 404] ∧
    (r.mime ∈ mimeTypes.map (fun entry => entry.2.toList) ∨
      r.mime = "application/octet-stream".toList ∨ r.mime = "text/plain; charset=utf-8".toList)

section Response
variable {fs : FileSystem} {assetsDir : Bytes} {r : Response}

theorem print_field (name : String) (value : Text) :
    HttpMessage.line (field name value).print =
      Utf8.encode (name.toList ++ ": ".toList ++ value ++ "\r\n".toList) := by
  have hcolon : Utf8.encode ": ".toList = [HttpMessage.colon, space] := by
    decide +kernel
  have hbreak : Utf8.encode "\r\n".toList = [carriageReturn, newline] := by
    decide +kernel
  simp only [HttpMessage.line, field, Field.print, bytes, Utf8.encode_append, hcolon, hbreak,
    List.append_assoc, List.cons_append, List.nil_append]

/-- The head line by line. -/
theorem responseHead_lines (r : Response) : responseHead r =
    "HTTP/1.1 ".toList ++ statusLine r.status ++ "\r\n".toList ++
      ("Content-Type".toList ++ ": ".toList ++ r.mime ++ "\r\n".toList ++
        ("Content-Length".toList ++ ": ".toList ++ decimal r.body.length ++ "\r\n".toList ++
          ("Cache-Control".toList ++ ": ".toList ++ "no-cache".toList ++ "\r\n".toList ++
            ("Connection".toList ++ ": ".toList ++ "close".toList ++ "\r\n".toList ++
              "\r\n".toList)))) := by
  have htype : "\r\nContent-Type: ".toList =
      "\r\n".toList ++ ("Content-Type".toList ++ ": ".toList) := by decide +kernel
  have hlength : "\r\nContent-Length: ".toList =
      "\r\n".toList ++ ("Content-Length".toList ++ ": ".toList) := by decide +kernel
  have hrest : "\r\nCache-Control: no-cache\r\nConnection: close\r\n\r\n".toList =
      "\r\n".toList ++ ("Cache-Control".toList ++ ": ".toList ++ "no-cache".toList ++
        "\r\n".toList ++ ("Connection".toList ++ ": ".toList ++ "close".toList ++
          "\r\n".toList ++ "\r\n".toList)) := by decide +kernel
  unfold responseHead
  rw [htype, hlength, hrest]
  simp only [List.append_assoc]

theorem print_message (r : Response) :
    (message r).print = Utf8.encode (responseHead r) ++ r.body := by
  have hbreak : HttpMessage.line [] = Utf8.encode "\r\n".toList := by decide +kernel
  have hstart : HttpMessage.line (message r).startLine =
      Utf8.encode ("HTTP/1.1 ".toList ++ statusLine r.status ++ "\r\n".toList) := by
    rw [Utf8.encode_append, ← hbreak]
    rfl
  rw [responseHead_lines, Message.print, hstart, hbreak]
  simp only [message, List.flatMap_cons, List.flatMap_nil, print_field, Utf8.encode_append,
    List.append_nil, List.append_assoc]

theorem sent_refuse {status : ℕ} (hstatus : status ∈ [200, 403, 404]) (reason : String) :
    Sent (refuse status reason) := ⟨hstatus, .inr (.inr rfl)⟩

theorem mimeFor_mem (path : List Bytes) :
    mimeFor path ∈ mimeTypes.map (fun entry => entry.2.toList) ∨
      mimeFor path = "application/octet-stream".toList := by
  unfold mimeFor
  dsimp only
  cases h : (path.getLast?.bind extension).bind fun ext =>
      mimeTypes.find? fun entry => Utf8.encode entry.1.toList = ext with
  | none => exact .inr rfl
  | some entry =>
      obtain ⟨ext, -, hfind⟩ := Option.bind_eq_some_iff.mp h
      exact .inl (List.mem_map_of_mem (List.mem_of_find?_eq_some hfind))

theorem sent_serveStatic (path : Text) : Sent (serveStatic fs path assetsDir) := by
  unfold serveStatic
  split
  · exact sent_refuse (by simp) _
  · split
    · exact sent_refuse (by simp) _
    · split_ifs
      · split
        · refine ⟨by simp, ?_⟩
          rcases mimeFor_mem _ with h | h
          · exact .inl h
          · exact .inr (.inl h)
        · exact sent_refuse (by simp) _
      · exact sent_refuse (by simp) _

/-- Neither a line break nor a space in front. -/
def Plain (value : Bytes) : Prop :=
  carriageReturn ∉ value ∧ value.head? ≠ some space

instance (value : Bytes) : Decidable (Plain value) := inferInstanceAs (Decidable (_ ∧ _))

theorem plain_mime (h : Sent r) : Plain (Utf8.encode r.mime) := by
  have hmimes : ∀ mime ∈ mimeTypes.map (fun entry => entry.2.toList),
      Plain (Utf8.encode mime) := by decide +kernel
  rcases h.2 with hmime | hmime | hmime
  · exact hmimes _ hmime
  · rw [hmime]
    decide +kernel
  · rw [hmime]
    decide +kernel

theorem encode_decimal (n : ℕ) : HttpMessage.readDecimal (Utf8.encode (decimal n)) = some n := by
  have hdigits : ∀ c ∈ decimal n, c.isDigit = true := fun c => isDigit_of_mem_decimal
  have hne : decimal n ≠ [] := Nat.toDigits_ne_nil
  rw [Utf8.encode, HttpMessage.readDecimal_digits hne hdigits]
  exact congrArg some Nat.ofDigitChars_ten_toDigits

theorem plain_decimal (n : ℕ) : Plain (Utf8.encode (decimal n)) := by
  have hnot : ∀ b : UInt8, b.toNat < 48 → b ∉ Utf8.encode (decimal n) := by
    intro b hb hmem
    obtain ⟨c, hc, hb'⟩ := List.mem_flatMap.mp hmem
    have hvalue := (Utf8.ascii_mem_utf8EncodeChar (by omega)).mp hb'
    have hdigit := HttpMessage.toNat_of_isDigit (isDigit_of_mem_decimal hc)
    omega
  refine ⟨hnot _ (by decide), ?_⟩
  intro hhead
  exact hnot _ (by decide) (List.mem_of_mem_head? hhead)

/-- No line break can come in with a mime type or a length. -/
theorem wellFormed_message (h : Sent r) : (message r).WellFormed := by
  constructor
  · have hstatus : ∀ status ∈ [200, 403, 404],
        carriageReturn ∉ Utf8.encode ("HTTP/1.1 ".toList ++ statusLine status) := by
      decide +kernel
    exact hstatus _ h.1
  · have hname : ∀ name ∈ ["Content-Type", "Content-Length", "Cache-Control", "Connection"],
        HttpMessage.colon ∉ bytes name ∧ carriageReturn ∉ bytes name := by decide +kernel
    intro f hf
    simp only [message, List.mem_cons, List.not_mem_nil, or_false] at hf
    rcases hf with rfl | rfl | rfl | rfl
    · exact ⟨hname _ (by simp), plain_mime h⟩
    · exact ⟨hname _ (by simp), plain_decimal _⟩
    · exact ⟨hname _ (by simp), by decide +kernel⟩
    · exact ⟨hname _ (by simp), by decide +kernel⟩
  · have hlength : (message r).fields.filter (·.hasName HttpMessage.contentLengthName) =
        [field "Content-Length" (decimal r.body.length)] := by
      have htype : (bytes "Content-Type").map HttpMessage.lower ≠
          HttpMessage.contentLengthName.map HttpMessage.lower := by decide +kernel
      have hlength : (bytes "Content-Length").map HttpMessage.lower =
          HttpMessage.contentLengthName.map HttpMessage.lower := by decide +kernel
      have hcache : (bytes "Cache-Control").map HttpMessage.lower ≠
          HttpMessage.contentLengthName.map HttpMessage.lower := by decide +kernel
      have hconnection : (bytes "Connection").map HttpMessage.lower ≠
          HttpMessage.contentLengthName.map HttpMessage.lower := by decide +kernel
      simp [message, field, Field.hasName, htype, hlength, hcache, hconnection]
    unfold HttpMessage.contentLength
    rw [hlength]
    exact encode_decimal _

end Response

section Target
variable {method target : Text}

theorem splitWhitespace_second {third : Text} (hmethod : method ≠ [])
    (hmethodWord : ∀ c ∈ method, isWhitespace c = false) (htarget : target ≠ [])
    (htargetWord : ∀ c ∈ target, isWhitespace c = false) :
    (splitWhitespace (method ++ ' ' :: (target ++ ' ' :: third)))[1]? = some target := by
  rw [splitWhitespace_cons hmethod hmethodWord (by decide),
    splitWhitespace_cons htarget htargetWord (by decide)]
  rfl

/-- Only the end of a line can lose a carriage return. -/
theorem chompCr_append_cons (front : Text) (c : Char) (hc : c ≠ '\r') (back : Text) :
    ∃ back', chompCr (front ++ c :: back) = front ++ c :: back' := by
  unfold chompCr
  split_ifs with hlast
  · cases back with
    | nil =>
        rw [List.getLast?_concat, Option.some.injEq] at hlast
        exact absurd hlast hc
    | cons d back =>
        refine ⟨(d :: back).dropLast, ?_⟩
        rw [List.dropLast_append_of_ne_nil (by simp)]
        rfl
  · exact ⟨back, rfl⟩

/-- The second word of the first line, whatever octets follow it. -/
theorem linePath_target (hmethod : method ≠ [])
    (hmethodWord : ∀ c ∈ method, isWhitespace c = false) (htarget : target ≠ [])
    (htargetWord : ∀ c ∈ target, isWhitespace c = false) (more : Bytes) :
    linePath (Utf8.encode (method ++ ' ' :: (target ++ [' '])) ++ more) = target := by
  have hlossy : Utf8.lossy (Utf8.encode (method ++ ' ' :: (target ++ [' '])) ++ more) =
      (method ++ ' ' :: target) ++ ' ' :: Utf8.lossy more := by
    rw [Utf8.lossy_encode_append]
    simp
  obtain ⟨third, hchomp⟩ := chompCr_append_cons (method ++ ' ' :: target) ' ' (by decide)
    (Utf8.lossy more)
  unfold linePath
  rw [hlossy, hchomp, List.append_assoc, List.cons_append,
    splitWhitespace_second hmethod hmethodWord htarget htargetWord]
  rfl

end Target

/-- A name that stands for itself in a path. -/
structure PlainName (name : Text) : Prop where
  nonempty : name ≠ []
  noSlash : '/' ∉ name
  noNul : '\x00' ∉ name
  noDots : name ≠ ".".toList ∧ name ≠ "..".toList

/-- A readable file below the root, with directories on the way to it and no link. -/
structure Stands (fs : FileSystem) (root names : List Bytes) (body : Bytes) : Prop where
  dirs : ∀ front back, names = front ++ back → back ≠ [] →
    isDir (fs.tree (root ++ front)) = true
  file : fs.tree (root ++ names) = some (.file (some body))

section Files
variable {fs : FileSystem} {assetsDir : Bytes} {root : List Bytes} {names : List Text}
variable {body : Bytes}

theorem encode_intercalate (names : List Text) :
    Utf8.encode (['/'].intercalate names) = [slash].intercalate (names.map Utf8.encode) := by
  induction names with
  | nil => rfl
  | cons name names ih =>
      cases names with
      | nil => simp [List.intercalate]
      | cons next names =>
          have hslash : Utf8.encode ['/'] = [slash] := by decide
          simp only [List.map_cons, List.intercalate_cons_cons, Utf8.encode_append, hslash] at ih ⊢
          rw [ih]

theorem encode_injective : Function.Injective Utf8.encode := by
  intro s t h
  have hdecode := congrArg Utf8.decode h
  rw [Utf8.decode_encode, Utf8.decode_encode] at hdecode
  exact Option.some.inj hdecode

theorem ascii_not_mem_encode {name : Text} {c : Char} (hc : c.toNat < 128) (h : c ∉ name) :
    UInt8.ofNat c.toNat ∉ Utf8.encode name := by
  have htoNat : (UInt8.ofNat c.toNat).toNat = c.toNat := by
    rw [UInt8.toNat_ofNat']
    omega
  intro hmem
  obtain ⟨d, hd, hoctet⟩ := List.mem_flatMap.mp hmem
  have hvalue := (Utf8.ascii_mem_utf8EncodeChar (by omega)).mp hoctet
  rw [htoNat] at hvalue
  exact h (Char.toNat_inj.mp hvalue ▸ hd)

theorem PlainName.segment {name : Text} (h : PlainName name) :
    StaticFiles.segment (Utf8.encode name) = .name (Utf8.encode name) := by
  have hempty : Utf8.encode name ≠ [] := mt Utf8.encode_eq_nil.mp h.nonempty
  have hdot : Utf8.encode name ≠ [dot] := by
    intro heq
    exact h.noDots.1 (encode_injective (heq.trans (by decide)))
  have hdots : Utf8.encode name ≠ [dot, dot] := by
    intro heq
    exact h.noDots.2 (encode_injective (heq.trans (by decide)))
  unfold StaticFiles.segment
  rw [if_neg (not_or.mpr ⟨hempty, hdot⟩), if_neg hdots]

theorem segments_names (hnames : ∀ name ∈ names, PlainName name) (hne : names ≠ []) :
    (route (Utf8.encode (['/'].intercalate names))).segments =
      (names.map Utf8.encode).map .name := by
  have hslash : ∀ octets ∈ names.map Utf8.encode, slash ∉ octets := by
    intro octets hoctets
    obtain ⟨name, hname, rfl⟩ := List.mem_map.mp hoctets
    exact ascii_not_mem_encode (c := '/') (by decide) (hnames name hname).noSlash
  dsimp only [route]
  rw [encode_intercalate, List.splitOn_intercalate slash hslash (by simpa using hne),
    List.map_map, List.map_map]
  exact List.map_congr_left fun name hname => (hnames name hname).segment

theorem mem_intercalate {c : Char} (h : c ∈ ['/'].intercalate names) :
    c = '/' ∨ ∃ name ∈ names, c ∈ name := by
  induction names with
  | nil => simp [List.intercalate] at h
  | cons name names ih =>
      cases names with
      | nil =>
          right
          exact ⟨name, List.mem_cons_self .., by simpa [List.intercalate] using h⟩
      | cons next names =>
          rw [List.intercalate_cons_cons] at h
          rcases List.mem_append.mp h with h | h
          · rcases List.mem_append.mp h with h | h
            · exact .inr ⟨name, List.mem_cons_self .., h⟩
            · exact .inl (List.mem_singleton.mp h)
          · cases ih h with
            | inl hslash => exact .inl hslash
            | inr hname =>
                obtain ⟨other, hother, hc⟩ := hname
                exact .inr ⟨other, List.mem_cons_of_mem _ hother, hc⟩

/-- The path of such a file, seen from the root, leads to it. -/
theorem Stands.resolvesPath (h : Stands fs root (names.map Utf8.encode) body)
    (hnames : ∀ name ∈ names, PlainName name) {path : Text}
    (hpath : relative path = ['/'].intercalate names) :
    ResolvesPath fs.tree root (Utf8.encode (relative path)) 0 (root ++ names.map Utf8.encode) := by
  have hrel : Utf8.encode (relative path) ≠ [] := relative_ne_nil
  have hne : names ≠ [] := by
    rintro rfl
    apply hrel
    rw [hpath]
    rfl
  refine ⟨hrel, ?_, ?_⟩
  · refine ascii_not_mem_encode (c := '\x00') (by decide) ?_
    intro hnul
    rw [hpath] at hnul
    cases mem_intercalate hnul with
    | inl hslash => exact absurd hslash (by decide)
    | inr hname =>
        obtain ⟨name, hname, hc⟩ := hname
        exact (hnames name hname).noNul hc
  · rw [start_of_relative relative_head, hpath, segments_names hnames hne]
    exact resolves_names h.dirs h.file (by simp)

theorem Stands.serveStatic (h : Stands fs root (names.map Utf8.encode) body)
    (hnames : ∀ name ∈ names, PlainName name) {path : Text}
    (hpath : relative path = ['/'].intercalate names) {n : ℕ}
    (hroot : ResolvesPath fs.tree fs.cwd assetsDir n root) (hlinks : n ≤ fs.maxLinks) :
    StaticFiles.serveStatic fs path assetsDir =
      ⟨200, body, mimeFor (root ++ names.map Utf8.encode)⟩ := by
  have hlocates : Locates fs assetsDir path root (root ++ names.map Utf8.encode) :=
    ⟨n, 0, hroot, h.resolvesPath hnames hpath, hlinks⟩
  rw [serveStatic_of_locates hlocates, if_neg (not_not.mpr (List.prefix_append ..))]
  simp only [StaticFiles.read, h.file]

end Files

/-- A request for the root of the assets, cut inside the empty line. -/
def indexRequest : List Bytes := [bytes "GET / HTTP/1.1\r\nHost: nas\r\n\r", bytes "\n"]

end DnslessHomelab.HttpExchange
