import DnslessHomelab.FileTree
import DnslessHomelab.Protocol
import DnslessHomelab.Utf8

/-!
# Static files of the admin server

Unix paths are octets, names separated by slashes; an empty name and a dot stay where
they are. `canonicalize` resolves a path from the working directory, following as many
links as the system allows in one call, and refuses an empty path and one with a NUL in
it; limits on lengths are left out. The tree does not change while a request is served.
What `canonicalize` returns has no links left, so that its file is read where it stands;
a file without content is one that cannot be read.
-/
namespace DnslessHomelab.StaticFiles
open Protocol FileTree

structure FileSystem where
  tree : Tree Bytes (Option Bytes)
  cwd : List Bytes
  maxLinks : ℕ

def slash : UInt8 := 47
def dot : UInt8 := 46

def segment (name : Bytes) : Segment Bytes :=
  if name = [] ∨ name = [dot] then .here
  else if name = [dot, dot] then .parent
  else .name name

def route (path : Bytes) : Route Bytes where
  absolute := path.head? = some slash
  segments := (path.splitOn slash).map segment

def canonicalize (fs : FileSystem) (path : Bytes) : Option (List Bytes) :=
  if path = [] ∨ 0 ∈ path then none
  else (walk fs.tree fs.maxLinks ((route path).start fs.cwd) (route path).segments).map Prod.fst

def join (dir rel : Bytes) : Bytes :=
  if rel.head? = some slash then rel
  else if dir = [] ∨ dir.getLast? = some slash then dir ++ rel
  else dir ++ slash :: rel

def read (fs : FileSystem) (full : List Bytes) : Option Bytes :=
  match fs.tree full with
  | some (.file content) => content
  | some .dir | some (.link _) | none => none

/-- What follows the last dot of a file name, unless the name only begins with it. -/
def extension (name : Bytes) : Option Bytes :=
  let after := (name.reverse.takeWhile (· ≠ dot)).reverse
  match name.reverse.dropWhile (· ≠ dot) with
  | [] | [_] => none
  | _ :: _ :: _ => some after

def mimeTypes : List (String × String) :=
  [("html", "text/html; charset=utf-8"), ("js", "application/javascript"),
    ("wasm", "application/wasm"), ("css", "text/css"), ("json", "application/json"),
    ("png", "image/png"), ("svg", "image/svg+xml"), ("ico", "image/x-icon"),
    ("webp", "image/webp")]

def mimeFor (path : List Bytes) : Text :=
  let mime := (path.getLast?.bind extension).bind fun ext =>
    mimeTypes.find? fun entry => Utf8.encode entry.1.toList = ext
  match mime with
  | some entry => entry.2.toList
  | none => "application/octet-stream".toList

structure Response where
  status : ℕ
  body : Bytes
  mime : Text
  deriving DecidableEq, Repr

def refuse (status : ℕ) (reason : String) : Response :=
  ⟨status, Utf8.encode reason.toList, "text/plain; charset=utf-8".toList⟩

/-- The requested path below the assets directory. -/
def relative (path : Text) : Text :=
  let rel := path.dropWhile (· = '/')
  if rel = [] then "index.html".toList else rel

def serveStatic (fs : FileSystem) (path : Text) (assetsDir : Bytes) : Response :=
  match canonicalize fs assetsDir with
  | none => refuse 404 "assets directory not found"
  | some root =>
      match canonicalize fs (join assetsDir (Utf8.encode (relative path))) with
      | none => refuse 404 "not found"
      | some full =>
          if ¬ root <+: full then refuse 403 "forbidden"
          else
            match read fs full with
            | some body => ⟨200, body, mimeFor full⟩
            | none => refuse 404 "not found"

/-- A path, seen from a directory, resolves to a place after so many links. -/
structure ResolvesPath (tree : Tree Bytes (Option Bytes)) (cur : List Bytes) (path : Bytes)
    (n : ℕ) (target : List Bytes) : Prop where
  nonempty : path ≠ []
  noNul : 0 ∉ path
  resolves : Resolves tree ((route path).start cur) (route path).segments n target

section Paths
variable {fs : FileSystem} {cur root full : List Bytes} {dir rel path : Bytes} {a n : ℕ}

theorem canonicalize_eq_some_iff :
    canonicalize fs path = some full ↔
      ∃ n, ResolvesPath fs.tree fs.cwd path n full ∧ n ≤ fs.maxLinks := by
  unfold canonicalize
  split_ifs with hpath
  · constructor
    · intro h
      cases h
    · intro h
      obtain ⟨n, hn, -⟩ := h
      exact absurd hpath (not_or.mpr ⟨hn.nonempty, hn.noNul⟩)
  · obtain ⟨hne, hnul⟩ := not_or.mp hpath
    rw [Option.map_eq_some_iff]
    constructor
    · intro h
      obtain ⟨⟨target, left⟩, hwalk, rfl⟩ := h
      obtain ⟨n, hn, hleft⟩ := walk_eq_some_iff.mp hwalk
      exact ⟨n, ⟨hne, hnul, hn⟩, by omega⟩
    · intro h
      obtain ⟨n, hn, hle⟩ := h
      refine ⟨(full, fs.maxLinks - n), walk_eq_some_iff.mpr ⟨n, hn.resolves, ?_⟩, rfl⟩
      omega

/-- A path that does not begin with a slash starts where one stands. -/
theorem start_of_relative (hrel : rel.head? ≠ some slash) : (route rel).start cur = cur := by
  simp [route, Route.start, hrel]

theorem segments_append_slash (front back : Bytes) :
    (route (front ++ slash :: back)).segments =
      (route front).segments ++ (route back).segments := by
  simp only [route, List.splitOn_append_cons_self, List.map_append]

theorem start_append (hne : dir ≠ []) (more : Bytes) :
    (route (dir ++ more)).start cur = (route dir).start cur := by
  cases dir with
  | nil => exact absurd rfl hne
  | cons b dir => rfl

/-- A slash at the end asks for a directory. -/
theorem resolves_append_slash {front : Bytes} {start : List Bytes} :
    Resolves fs.tree start (route (front ++ [slash])).segments n root ↔
      Resolves fs.tree start (route front).segments n root ∧ isDir (fs.tree root) = true := by
  have hlast : (route ([] : Bytes)).segments = [.here] := by decide
  rw [segments_append_slash, hlast, resolves_append_iff]
  constructor
  · intro h
    obtain ⟨a, mid, b, hfront, hhere, rfl⟩ := h
    cases hhere with
    | here hdir hdone =>
        cases hdone
        exact ⟨hfront, hdir⟩
  · intro h
    exact ⟨n, root, 0, h.1, .here h.2 (.done root), rfl⟩

/-- What follows a slash is walked from where the path in front of it ends. -/
theorem resolves_behind {front : Bytes} {start : List Bytes}
    (hfront : Resolves fs.tree start (route front).segments a root) :
    Resolves fs.tree start (route (front ++ slash :: rel)).segments n full ↔
      ∃ b, Resolves fs.tree root (route rel).segments b full ∧ a + b = n := by
  rw [segments_append_slash, resolves_append_iff]
  constructor
  · intro h
    obtain ⟨a', mid, b, hfront', hback, hn⟩ := h
    obtain ⟨rfl, rfl⟩ := resolves_unique hfront hfront'
    exact ⟨b, hback, hn⟩
  · intro h
    obtain ⟨b, hback, hn⟩ := h
    exact ⟨a, root, b, hfront, hback, hn⟩

/-- The joined path is one that resolves as the directory does, a slash and the rest. -/
theorem join_eq (hdir : ResolvesPath fs.tree cur dir a root) (hrel : rel.head? ≠ some slash) :
    ∃ front, join dir rel = front ++ slash :: rel ∧ (0 : UInt8) ∉ front ∧
      Resolves fs.tree ((route dir).start cur) (route front).segments a root := by
  unfold join
  rw [if_neg hrel]
  by_cases hlast : dir.getLast? = some slash
  · obtain ⟨front, rfl⟩ := List.getLast?_eq_some_iff.mp hlast
    rw [if_pos (.inr hlast)]
    refine ⟨front, by simp, fun hm => hdir.noNul (List.mem_append_left _ hm), ?_⟩
    exact (resolves_append_slash.mp hdir.resolves).1
  · rw [if_neg (not_or.mpr ⟨hdir.nonempty, hlast⟩)]
    exact ⟨dir, rfl, hdir.noNul, hdir.resolves⟩

theorem start_join (hne : dir ≠ []) (hrel : rel.head? ≠ some slash) :
    (route (join dir rel)).start cur = (route dir).start cur := by
  unfold join
  rw [if_neg hrel]
  split_ifs
  · exact start_append hne rel
  · exact start_append hne _

/-- From a directory that resolves, the joined path resolves as the relative one does
from there. -/
theorem resolves_join (hdir : ResolvesPath fs.tree cur dir a root) (hne : rel ≠ [])
    (hrel : rel.head? ≠ some slash) :
    ResolvesPath fs.tree cur (join dir rel) n full ↔
      ∃ b, ResolvesPath fs.tree root rel b full ∧ a + b = n := by
  have hstart : (route rel).start root = root := start_of_relative hrel
  have hstartJoin : (route (join dir rel)).start cur = (route dir).start cur :=
    start_join hdir.nonempty hrel
  obtain ⟨front, hjoin, hnul, hfront⟩ := join_eq hdir hrel
  constructor
  · intro h
    have hresolves := h.resolves
    rw [hstartJoin, hjoin] at hresolves
    obtain ⟨b, hback, hn⟩ := (resolves_behind hfront).mp hresolves
    refine ⟨b, ⟨hne, ?_, by rwa [hstart]⟩, hn⟩
    intro hm
    apply h.noNul
    rw [hjoin]
    exact List.mem_append_right _ (List.mem_cons_of_mem _ hm)
  · intro h
    obtain ⟨b, hback, hn⟩ := h
    have hresolves := hback.resolves
    rw [hstart] at hresolves
    constructor
    · rw [hjoin]
      simp
    · rw [hjoin, List.mem_append, List.mem_cons]
      intro hm
      rcases hm with hm | hm | hm
      · exact hnul hm
      · cases hm
      · exact hback.noNul hm
    · rw [hstartJoin, hjoin]
      exact (resolves_behind hfront).mpr ⟨b, hresolves, hn⟩

end Paths

section Request
variable {path : Text}

theorem relative_ne_nil : Utf8.encode (relative path) ≠ [] := by
  rw [Ne, Utf8.encode_eq_nil]
  unfold relative
  dsimp only
  split_ifs with h
  · decide
  · exact h

/-- Nothing of a leading slash is left. -/
theorem relative_head : (Utf8.encode (relative path)).head? ≠ some slash := by
  have htext : (relative path).head? ≠ some '/' := by
    unfold relative
    dsimp only
    split_ifs with h
    · decide
    · intro hhead
      have hnot := List.head?_dropWhile_not (· = '/') path
      rw [hhead] at hnot
      simp at hnot
  intro h
  cases hrel : relative path with
  | nil => simp [hrel] at h
  | cons c rest =>
      rw [hrel] at h htext
      rw [Utf8.encode_cons, List.head?_append_of_ne_nil _ (by simp)] at h
      have hc := (Utf8.ascii_mem_utf8EncodeChar (by decide)).mp (List.mem_of_mem_head? h)
      exact htext (congrArg some (Char.toNat_inj.mp hc))

end Request

/-- The assets root and the requested place, seen from it; the links on the way to both
are within what one call follows. -/
def Locates (fs : FileSystem) (assetsDir : Bytes) (path : Text) (root full : List Bytes) : Prop :=
  ∃ n m, ResolvesPath fs.tree fs.cwd assetsDir n root ∧
    ResolvesPath fs.tree root (Utf8.encode (relative path)) m full ∧ n + m ≤ fs.maxLinks

section Serve
variable {fs : FileSystem} {assetsDir : Bytes} {path : Text} {root full : List Bytes}

theorem locates_iff : Locates fs assetsDir path root full ↔
    canonicalize fs assetsDir = some root ∧
      canonicalize fs (join assetsDir (Utf8.encode (relative path))) = some full := by
  rw [canonicalize_eq_some_iff, canonicalize_eq_some_iff]
  constructor
  · intro h
    obtain ⟨n, m, hroot, hfull, hle⟩ := h
    refine ⟨⟨n, hroot, by omega⟩, n + m, ?_, hle⟩
    exact (resolves_join hroot relative_ne_nil relative_head).mpr ⟨m, hfull, rfl⟩
  · intro h
    obtain ⟨⟨n, hroot, -⟩, k, hjoin, hle⟩ := h
    obtain ⟨m, hfull, rfl⟩ := (resolves_join hroot relative_ne_nil relative_head).mp hjoin
    exact ⟨n, m, hroot, hfull, hle⟩

theorem serveStatic_of_locates (h : Locates fs assetsDir path root full) :
    serveStatic fs path assetsDir =
      if ¬ root <+: full then refuse 403 "forbidden"
      else
        match read fs full with
        | some body => ⟨200, body, mimeFor full⟩
        | none => refuse 404 "not found" := by
  obtain ⟨hroot, hfull⟩ := locates_iff.mp h
  unfold serveStatic
  simp only [hroot, hfull]

theorem serveStatic_of_not_locates (h : ¬ ∃ root full, Locates fs assetsDir path root full) :
    serveStatic fs path assetsDir = refuse 404 "assets directory not found" ∨
      serveStatic fs path assetsDir = refuse 404 "not found" := by
  unfold serveStatic
  cases hroot : canonicalize fs assetsDir with
  | none => exact .inl rfl
  | some root =>
      right
      cases hfull : canonicalize fs (join assetsDir (Utf8.encode (relative path))) with
      | none => rfl
      | some full => exact absurd ⟨root, full, locates_iff.mpr ⟨hroot, hfull⟩⟩ h

/-- What is served stands below the resolved root. -/
theorem ok_iff (body : Bytes) :
    ((serveStatic fs path assetsDir).status = 200 ∧
        (serveStatic fs path assetsDir).body = body) ↔
      ∃ root full, Locates fs assetsDir path root full ∧ root <+: full ∧
        read fs full = some body := by
  constructor
  · intro h
    by_cases hlocates : ∃ root full, Locates fs assetsDir path root full
    · obtain ⟨root, full, hlocates⟩ := hlocates
      rw [serveStatic_of_locates hlocates] at h
      by_cases hinside : root <+: full
      · rw [if_neg (not_not.mpr hinside)] at h
        cases hread : read fs full with
        | none =>
            rw [hread] at h
            cases h.1
        | some served =>
            rw [hread] at h
            refine ⟨root, full, hlocates, hinside, ?_⟩
            rw [hread, ← h.2]
      · rw [if_pos hinside] at h
        cases h.1
    · cases serveStatic_of_not_locates hlocates with
      | inl heq | inr heq =>
          rw [heq] at h
          cases h.1
  · intro h
    obtain ⟨root, full, hlocates, hinside, hread⟩ := h
    rw [serveStatic_of_locates hlocates, if_neg (not_not.mpr hinside), hread]
    exact ⟨rfl, rfl⟩

end Serve

/-- A request is answered with a file exactly when the root resolves and the path, taken
relative to it, resolves to a readable file whose names extend those of the root; what
resolves elsewhere is forbidden; and any other body is one of three fixed texts. -/
theorem serveStatic_inside (fs : FileSystem) (assetsDir : Bytes) (path : Text) :
    (∀ body, ((serveStatic fs path assetsDir).status = 200 ∧
        (serveStatic fs path assetsDir).body = body) ↔
      ∃ root full, Locates fs assetsDir path root full ∧ root <+: full ∧
        read fs full = some body) ∧
      (∀ root full, Locates fs assetsDir path root full → ¬ root <+: full →
        serveStatic fs path assetsDir = refuse 403 "forbidden") ∧
      ((serveStatic fs path assetsDir).status = 200 ∨
        ∃ reason ∈ ["assets directory not found", "not found", "forbidden"],
          (serveStatic fs path assetsDir).body = Utf8.encode reason.toList) := by
  refine ⟨ok_iff, ?_, ?_⟩
  · intro root full hlocates houtside
    rw [serveStatic_of_locates hlocates, if_pos houtside]
  · by_cases hlocates : ∃ root full, Locates fs assetsDir path root full
    · obtain ⟨root, full, hlocates⟩ := hlocates
      rw [serveStatic_of_locates hlocates]
      by_cases hinside : root <+: full
      · rw [if_neg (not_not.mpr hinside)]
        cases read fs full with
        | none => exact .inr ⟨"not found", by simp, rfl⟩
        | some body => exact .inl rfl
      · rw [if_pos hinside]
        exact .inr ⟨"forbidden", by simp, rfl⟩
    · right
      cases serveStatic_of_not_locates hlocates with
      | inl heq => exact ⟨"assets directory not found", by simp, congrArg Response.body heq⟩
      | inr heq => exact ⟨"not found", by simp, congrArg Response.body heq⟩

section Site

def bytes (text : String) : Bytes := Utf8.encode text.toList

/-- The assets are reached through a link; beside them stands a directory whose name
extends theirs, and a link inside leads to it. -/
def site : FileSystem where
  cwd := [bytes "srv"]
  maxLinks := 40
  tree path :=
    let entries : List (List Bytes × Entry Bytes (Option Bytes)) :=
      [([], .dir), ([bytes "srv"], .dir), ([bytes "srv", bytes "web"], .dir),
        ([bytes "srv", bytes "assets"], .link (route (bytes "./web/"))),
        ([bytes "srv", bytes "web", bytes "index.html"], .file (some (bytes "ui"))),
        ([bytes "srv", bytes "web", bytes "up"], .link (route (bytes "../web-secret"))),
        ([bytes "srv", bytes "web-secret"], .dir),
        ([bytes "srv", bytes "web-secret", bytes "key"], .file (some (bytes "secret")))]
    entries.lookup path

example : serveStatic site "//".toList (bytes "assets") =
    ⟨200, bytes "ui", "text/html; charset=utf-8".toList⟩ := by decide +kernel

example : serveStatic site "/../web-secret/key".toList (bytes "assets/") =
    refuse 403 "forbidden" := by decide +kernel

example : serveStatic site "/up/key".toList (bytes "/srv/web") =
    refuse 403 "forbidden" := by decide +kernel

end Site

end DnslessHomelab.StaticFiles
