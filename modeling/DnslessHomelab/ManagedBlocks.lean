import DnslessHomelab.OrderedMap
import DnslessHomelab.ReplaceOrAppend

/-!
# Managed blocks as a map from hostnames to addresses

A file whose managed part was written by updates alone is a base text followed
by items: complete blocks and, once a marker matched inside a longer name, the
debris of the block it matched in. One update acts on the items; the map view is
exact as long as no update leaves debris.
-/
namespace DnslessHomelab.ManagedBlocks
open Protocol SubstringSearch LineText ReplaceOrAppend OrderedMap

/-- Neither a line break nor the marker character. -/
def Clean (t : Text) : Prop := '\n' ∉ t ∧ '#' ∉ t

/-- What follows the base text: a block, or the tail of a name with its newline. -/
inductive Item where
  | block (hostname ip : Text)
  | debris (rest : Text)
  deriving DecidableEq, Repr

def Item.text : Item → Text
  | .block hostname ip => newBlock hostname ip
  | .debris rest => rest ++ ['\n']

def Item.Clean : Item → Prop
  | .block hostname ip => ManagedBlocks.Clean hostname ∧ ManagedBlocks.Clean ip
  | .debris rest => ManagedBlocks.Clean rest

def render (items : List Item) : Text := items.flatMap Item.text

@[simp] theorem render_nil : render [] = [] := rfl

@[simp] theorem render_cons (i : Item) (items : List Item) :
    render (i :: items) = i.text ++ render items := rfl

/-- The first block whose name starts with `hostname` is taken for its own block;
the unmatched tail of a longer name stays behind. -/
def insertItem (hostname ip : Text) : List Item → List Item
  | [] => [.block hostname ip]
  | .debris rest :: items => .debris rest :: insertItem hostname ip items
  | .block g old :: items =>
      if hostname <+: g then
        .block hostname ip ::
          if g = hostname then items else .debris (g.drop hostname.length) :: items
      else .block g old :: insertItem hostname ip items

theorem Item.terminated (i : Item) : Terminated '\n' i.text := by
  cases i with
  | block hostname ip =>
      rw [Item.text, newBlock_eq_unlines]
      exact terminated_unlines _
  | debris rest => exact .inr ⟨rest, rfl⟩

section Search
variable {h g old : Text}

/-- A marker can only match at the front of a block or at the front of its last line. -/
theorem find_block {p : Text} (hp : '\n' ∉ p) (hg : Clean g) (ho : Clean old) (rest : Text) :
    find ('#' :: p) (newBlock g old ++ rest) =
      if '#' :: p <+: beginMarker g then some 0
      else if '#' :: p <+: endMarker g then
        some ((newBlock g old).length - (endMarker g).length - 1)
      else (find ('#' :: p) rest).map (· + (newBlock g old).length) := by
  have hne : '#' :: p ≠ [] := by simp
  have hs : '\n' ∉ '#' :: p := by simp [hp]
  have hbegin : find ('#' :: p) (beginMarker g) =
      if '#' :: p <+: beginMarker g then some 0 else none := by
    rw [beginMarker_eq]
    exact find_of_head_not_mem (by simp [hg.2]) _
  have haddress : find ('#' :: p) (old ++ ' ' :: g) = none := by
    rw [find_eq_none_iff]
    exact fun hi => by simpa [hg.2, ho.2] using hi.subset (by simp : '#' ∈ _)
  have hend : find ('#' :: p) (endMarker g) =
      if '#' :: p <+: endMarker g then some 0 else none := by
    rw [endMarker_eq]
    exact find_of_head_not_mem (by simp [hg.2]) _
  have hsplit : newBlock g old ++ rest =
      beginMarker g ++ '\n' :: ((old ++ ' ' :: g) ++ '\n' :: (endMarker g ++ '\n' :: rest)) := by
    simp [newBlock]
  rw [hsplit, find_append_sep hne hs, hbegin, find_append_sep hne hs, haddress,
    find_append_sep hne hs, hend]
  have hlen : (newBlock g old).length =
      (beginMarker g).length + 1 + ((old ++ ' ' :: g).length + 1) + ((endMarker g).length + 1) := by
    simp only [newBlock, List.length_append, List.length_cons, List.length_nil]
    omega
  rw [hlen]
  by_cases hb : '#' :: p <+: beginMarker g
  · simp only [if_pos hb, Option.some_or]
  · by_cases he : '#' :: p <+: endMarker g
    · simp only [if_neg hb, if_pos he, Option.none_or, Option.some_or, Option.map_some,
        Option.some.injEq]
      omega
    · simp only [if_neg hb, if_neg he, Option.none_or, Option.map_map]
      congr 1
      funext n
      simp only [Function.comp_apply]
      omega

theorem find_beginMarker_block (hn : '\n' ∉ h) (hg : Clean g) (ho : Clean old) (rest : Text) :
    find (beginMarker h) (newBlock g old ++ rest) =
      if h <+: g then some 0
      else (find (beginMarker h) rest).map (· + (newBlock g old).length) := by
  rw [beginMarker_eq, find_block (by simp [hn]) hg ho, ← beginMarker_eq,
    if_neg not_beginMarker_prefix_endMarker]
  simp only [beginMarker_prefix_iff]

theorem find_endMarker_block (hn : '\n' ∉ h) (hg : Clean g) (ho : Clean old) (rest : Text) :
    find (endMarker h) (newBlock g old ++ rest) =
      if h <+: g then some ((newBlock g old).length - (endMarker g).length - 1)
      else (find (endMarker h) rest).map (· + (newBlock g old).length) := by
  rw [endMarker_eq, find_block (by simp [hn]) hg ho, ← endMarker_eq,
    if_neg not_endMarker_prefix_beginMarker]
  simp only [endMarker_prefix_iff]

theorem find_debris {p r : Text} (hr : Clean r) :
    find ('#' :: p) (r ++ ['\n']) = none := by
  rw [find_eq_none_iff]
  intro hi
  have hm : '#' ∈ r ++ ['\n'] := hi.subset (by simp)
  simp [hr.2] at hm

end Search

/-- No marker of `h` occurs, and nothing is unterminated. -/
structure Unmarked (h base : Text) : Prop where
  terminated : Terminated '\n' base
  noBegin : find (beginMarker h) base = none
  noEnd : find (endMarker h) base = none

theorem Unmarked.append {h base more : Text} (hn : '\n' ∉ h) (hb : Unmarked h base)
    (hm : Unmarked h more) : Unmarked h (base ++ more) where
  terminated := hb.terminated.append hm.terminated
  noBegin := find_append_eq_none (beginMarker_ne_nil h) (newline_not_mem_beginMarker hn)
    hb.terminated hb.noBegin hm.noBegin
  noEnd := find_append_eq_none (endMarker_ne_nil h) (newline_not_mem_endMarker hn)
    hb.terminated hb.noEnd hm.noEnd

theorem unmarked_debris {h r : Text} (hr : Clean r) :
    Unmarked h (Item.debris r).text where
  terminated := Item.terminated _
  noBegin := by
    rw [beginMarker_eq]
    exact find_debris hr
  noEnd := by
    rw [endMarker_eq]
    exact find_debris hr

theorem unmarked_block {h g old : Text} (hn : '\n' ∉ h) (hg : Clean g) (ho : Clean old)
    (hp : ¬ h <+: g) : Unmarked h (Item.block g old).text where
  terminated := Item.terminated _
  noBegin := by
    have hf := find_beginMarker_block hn hg ho []
    rwa [List.append_nil, if_neg hp, find_nil_of_ne (beginMarker_ne_nil h)] at hf
  noEnd := by
    have hf := find_endMarker_block hn hg ho []
    rwa [List.append_nil, if_neg hp, find_nil_of_ne (endMarker_ne_nil h)] at hf

/-- The last line of a block starts with the end marker of every prefix of its name. -/
theorem newBlock_split (h tail old : Text) :
    ∃ head, newBlock (h ++ tail) old = head ++ (endMarker h ++ (tail ++ ['\n'])) ∧
      (newBlock (h ++ tail) old).length - (endMarker (h ++ tail)).length - 1 = head.length := by
  refine ⟨beginMarker (h ++ tail) ++ '\n' :: old ++ ' ' :: (h ++ tail) ++ ['\n'], ?_, ?_⟩
  · simp [newBlock, endMarker_append]
  · simp only [newBlock, List.length_append, List.length_cons, List.length_nil]
    omega

/-- The block cut out is the whole block of `h`, or a longer name's block up to the
end of the matched name. -/
theorem replaceOrAppend_block {h tail old base : Text} (ip rest : Text) (hn : '\n' ∉ h)
    (hb : Unmarked h base) (hg : Clean (h ++ tail)) (ho : Clean old) :
    replaceOrAppend (base ++ (newBlock (h ++ tail) old ++ rest)) h ip =
      base ++ (newBlock h ip ++ if tail = [] then rest else tail ++ '\n' :: rest) := by
  have hbegin := find_skip (beginMarker_ne_nil h) (newline_not_mem_beginMarker hn) hb.terminated
    hb.noBegin (newBlock (h ++ tail) old ++ rest)
  have hend := find_skip (endMarker_ne_nil h) (newline_not_mem_endMarker hn) hb.terminated
    hb.noEnd (newBlock (h ++ tail) old ++ rest)
  rw [find_beginMarker_block hn hg ho, if_pos (List.prefix_append _ _), Option.map_some,
    Nat.zero_add] at hbegin
  obtain ⟨head, hsplit, hlen⟩ := newBlock_split h tail old
  rw [find_endMarker_block hn hg ho, if_pos (List.prefix_append _ _), Option.map_some,
    hlen] at hend
  have hdrop : (base ++ (newBlock (h ++ tail) old ++ rest)).drop
      (head.length + base.length + (endMarker h).length) = tail ++ '\n' :: rest := by
    have htext : base ++ (newBlock (h ++ tail) old ++ rest) =
        (base ++ head ++ endMarker h) ++ (tail ++ '\n' :: rest) := by
      simp [hsplit]
    rw [htext, List.drop_left']
    simp only [List.length_append]
    omega
  rw [replaceOrAppend_replace ip hbegin hend, hdrop, List.take_left, List.append_assoc]
  cases tail with
  | nil => simp [dropNewline]
  | cons t tail =>
      have ht : t ≠ '\n' := fun h => hg.1 (by simp [h])
      simp [dropNewline, ht]

/-- One update of the file is one update of the items. -/
theorem replaceOrAppend_render {h base : Text} {ip : Text} {items : List Item} (hn : '\n' ∉ h)
    (hb : Unmarked h base) (hc : ∀ i ∈ items, i.Clean) :
    replaceOrAppend (base ++ render items) h ip = base ++ render (insertItem h ip items) := by
  induction items generalizing base with
  | nil =>
      rw [render_nil, List.append_nil, replaceOrAppend_append ip (.inl hb.noBegin),
        closed_of_terminated hb.terminated]
      simp [insertItem, Item.text]
  | cons i items ih =>
      have hi := hc i (by simp)
      have hitems : ∀ k ∈ items, k.Clean := fun k hk => hc k (by simp [hk])
      -- an item without a marker of `h` joins the base text
      have hskip : Unmarked h i.text →
          replaceOrAppend (base ++ render (i :: items)) h ip =
            base ++ render (i :: insertItem h ip items) := by
        intro hu
        rw [render_cons, ← List.append_assoc, ih (hb.append hn hu) hitems]
        simp
      cases i with
      | debris r => exact hskip (unmarked_debris hi)
      | block g old =>
          by_cases hp : h <+: g
          · obtain ⟨tail, rfl⟩ := hp
            rw [render_cons, Item.text, replaceOrAppend_block ip _ hn hb hi.1 hi.2]
            simp only [insertItem, List.prefix_append, if_true, render_cons, Item.text,
              List.append_right_eq_self, List.drop_left]
            split_ifs <;> simp [Item.text]
          · rw [hskip (unmarked_block hn hi.1 hi.2 hp), insertItem, if_neg hp]

theorem insertItem_clean {h ip : Text} (hh : Clean h) (hip : Clean ip) {items : List Item}
    (hc : ∀ i ∈ items, i.Clean) : ∀ i ∈ insertItem h ip items, i.Clean := by
  induction items with
  | nil => simpa [insertItem, Item.Clean] using And.intro hh hip
  | cons k items ih =>
      have hk := hc k (by simp)
      have hitems : ∀ i ∈ items, i.Clean := fun i hi => hc i (by simp [hi])
      cases k with
      | debris r => simpa [insertItem] using And.intro hk (ih hitems)
      | block g old =>
          simp only [insertItem]
          split_ifs with hp hg
          · simpa [Item.Clean] using And.intro ⟨hh, hip⟩ hitems
          · obtain ⟨tail, rfl⟩ := hp
            have htail : Clean tail :=
              ⟨fun hm => hk.1.1 (by simp [hm]), fun hm => hk.1.2 (by simp [hm])⟩
            simpa [Item.Clean] using And.intro ⟨hh, hip⟩ ⟨htail, hitems⟩
          · simpa using And.intro hk (ih hitems)

/-- The run of a list of updates on the items. -/
def insertItems (items : List Item) (us : List IpUpdate) : List Item :=
  us.foldl (fun items u => insertItem u.hostname u.ip items) items

theorem applyUpdates_render {base : Text} {us : List IpUpdate}
    (hu : ∀ u ∈ us, Clean u.hostname ∧ Clean u.ip) (hb : ∀ u ∈ us, Unmarked u.hostname base)
    {items : List Item} (hc : ∀ i ∈ items, i.Clean) :
    applyUpdates (base ++ render items) us = base ++ render (insertItems items us) ∧
      ∀ i ∈ insertItems items us, i.Clean := by
  induction us generalizing items with
  | nil => exact ⟨rfl, hc⟩
  | cons u us ih =>
      obtain ⟨hh, hip⟩ := hu u (by simp)
      rw [applyUpdates_cons, applyUpdate, replaceOrAppend_render hh.1 (hb u (by simp)) hc]
      exact ih (fun v hv => hu v (by simp [hv])) (fun v hv => hb v (by simp [hv]))
        (insertItem_clean hh hip hc)

section Debris

def debris (items : List Item) : ℕ :=
  items.countP fun i => match i with
    | .block _ _ => false
    | .debris _ => true

@[simp] theorem debris_block (g old : Text) (items : List Item) :
    debris (.block g old :: items) = debris items := by simp [debris]

@[simp] theorem debris_debris (r : Text) (items : List Item) :
    debris (.debris r :: items) = debris items + 1 := by simp [debris]

theorem debris_le_insertItem (h ip : Text) (items : List Item) :
    debris items ≤ debris (insertItem h ip items) := by
  induction items with
  | nil => simp [insertItem]
  | cons i items ih =>
      cases i with
      | debris r => simpa [insertItem] using ih
      | block g old =>
          simp only [insertItem]
          split_ifs <;> simp [ih]

/-- Every block brings two marker characters and three newlines, debris one newline. -/
theorem count_render {items : List Item} (hc : ∀ i ∈ items, i.Clean) :
    2 * (render items).count '\n' = 3 * (render items).count '#' + 2 * debris items := by
  induction items with
  | nil => rfl
  | cons i items ih =>
      have hitems := ih fun k hk => hc k (by simp [hk])
      have hi := hc i (by simp)
      cases i with
      | debris r =>
          have hn : r.count '\n' = 0 := List.count_eq_zero.mpr hi.1
          have hh : r.count '#' = 0 := List.count_eq_zero.mpr hi.2
          simp only [render_cons, Item.text, List.count_append, debris_debris, hn, hh,
            List.count_singleton_self]
          simp
          omega
      | block g old =>
          have hgn : g.count '\n' = 0 := List.count_eq_zero.mpr hi.1.1
          have hgh : g.count '#' = 0 := List.count_eq_zero.mpr hi.1.2
          have hon : old.count '\n' = 0 := List.count_eq_zero.mpr hi.2.1
          have hoh : old.count '#' = 0 := List.count_eq_zero.mpr hi.2.2
          have hbn : (beginMarker g).count '\n' = 0 := by
            rw [← List.nil_append g, beginMarker_append, List.count_append, hgn]
            decide
          have hbh : (beginMarker g).count '#' = 1 := by
            rw [← List.nil_append g, beginMarker_append, List.count_append, hgh]
            decide
          have hen : (endMarker g).count '\n' = 0 := by
            rw [← List.nil_append g, endMarker_append, List.count_append, hgn]
            decide
          have heh : (endMarker g).count '#' = 1 := by
            rw [← List.nil_append g, endMarker_append, List.count_append, hgh]
            decide
          have hn : (newBlock g old).count '\n' = 3 := by
            simp [newBlock, hbn, hen, hgn, hon]
          have hh : (newBlock g old).count '#' = 2 := by
            simp [newBlock, hbh, heh, hgh, hoh]
          simp only [render_cons, Item.text, List.count_append, debris_block, hn, hh]
          omega

end Debris

section MapView

/-- One block per entry. -/
def blocks (es : List (Text × Text)) : List Item := es.map fun e => .block e.1 e.2

/-- Names in order of appearance: none is a prefix of an earlier one. -/
def Separated (names : List Text) : Prop := names.Pairwise fun earlier later => ¬ later <+: earlier

theorem insertItem_blocks {h ip : Text} {es : List (Text × Text)}
    (hs : Separated (es.map Prod.fst))
    (hh : h ∈ es.map Prod.fst ∨ ∀ g ∈ es.map Prod.fst, ¬ h <+: g) :
    insertItem h ip (blocks es) = blocks (insertEntry h ip es) := by
  induction es with
  | nil => rfl
  | cons e es ih =>
      obtain ⟨hfirst, hs⟩ := List.pairwise_cons.mp hs
      by_cases hp : h <+: e.1
      · have he : e.1 = h := by
          rcases hh with hm | hm
          · rcases List.mem_cons.mp hm with rfl | hm
            · rfl
            · exact (hfirst h hm hp).elim
          · exact (hm e.1 (by simp) hp).elim
        simp [blocks, insertItem, insertEntry, he]
      · have he : e.1 ≠ h := fun he => hp (he ▸ List.prefix_rfl)
        have htail : h ∈ es.map Prod.fst ∨ ∀ g ∈ es.map Prod.fst, ¬ h <+: g := by
          refine hh.imp (fun hm => ?_) fun hm g hg => hm g (by simp [hg])
          exact (List.mem_cons.mp hm).resolve_left fun h' => he h'.symm
        have hi := ih hs htail
        simp only [blocks, List.map_cons, insertItem, insertEntry, if_neg hp, if_neg he] at hi ⊢
        rw [hi]

theorem debris_insertItem_pos {h ip g : Text} {es : List (Text × Text)}
    (hh : h ∉ es.map Prod.fst) (hg : g ∈ es.map Prod.fst) (hp : h <+: g) :
    0 < debris (insertItem h ip (blocks es)) := by
  induction es with
  | nil => simp at hg
  | cons e es ih =>
      simp only [List.map_cons, List.mem_cons, not_or] at hh hg
      have he : e.1 ≠ h := fun he => hh.1 he.symm
      simp only [blocks, List.map_cons, insertItem]
      by_cases hpe : h <+: e.1
      · simp [hpe, he]
      · have hg' : g ∈ es.map Prod.fst := hg.resolve_left fun h' => hpe (h' ▸ hp)
        simpa [hpe, blocks] using ih hh.2 hg'

/-- Names and addresses of a run. -/
def pairs (us : List IpUpdate) : List (Text × Text) := us.map fun u => (u.hostname, u.ip)

/-- The abstract run: last address per name, in order of first appearance. -/
def hostMap (us : List IpUpdate) : Map Text Text := OrderedMap.empty.insertAll (pairs us)

/-- In order of first appearance, no name is a prefix of an earlier one. -/
def ShorterFirst (us : List IpUpdate) : Prop := Separated (firstSeen (us.map IpUpdate.hostname))

instance (us : List IpUpdate) : Decidable (ShorterFirst us) :=
  inferInstanceAs (Decidable (List.Pairwise _ _))

theorem hostMap_keys (us : List IpUpdate) :
    (hostMap us).entries.map Prod.fst = firstSeen (us.map IpUpdate.hostname) := by
  rw [hostMap, entries_insertAll, pairs, List.map_map, List.map_map]
  simp [Function.comp_def]

theorem hostMap_concat (us : List IpUpdate) (u : IpUpdate) :
    (hostMap (us ++ [u])).entries = insertEntry u.hostname u.ip (hostMap us).entries := by
  simp [hostMap, pairs, Map.insertAll, Map.insert]

/-- The items of a run are the blocks of its map, or contain debris. -/
theorem insertItems_cases (us : List IpUpdate) :
    (ShorterFirst us ∧ insertItems [] us = blocks (hostMap us).entries) ∨
      (¬ ShorterFirst us ∧ 0 < debris (insertItems [] us)) := by
  induction us using List.reverseRecOn with
  | nil => exact .inl ⟨List.Pairwise.nil, rfl⟩
  | append_singleton us u ih =>
      have hrun : insertItems [] (us ++ [u]) =
          insertItem u.hostname u.ip (insertItems [] us) := by
        simp [insertItems]
      rw [hrun]
      by_cases hold : u.hostname ∈ us.map IpUpdate.hostname
      · have hnames : ShorterFirst (us ++ [u]) ↔ ShorterFirst us := by
          rw [ShorterFirst, List.map_append, List.map_singleton, firstSeen_concat_of_mem hold]
          rfl
        rcases ih with ⟨hs, hitems⟩ | ⟨hs, hpos⟩
        · refine .inl ⟨hnames.mpr hs, ?_⟩
          rw [hitems, hostMap_concat]
          refine insertItem_blocks (by rwa [hostMap_keys]) (.inl ?_)
          rw [hostMap_keys]
          exact mem_firstSeen.mpr hold
        · exact .inr ⟨fun h => hs (hnames.mp h),
            lt_of_lt_of_le hpos (debris_le_insertItem _ _ _)⟩
      · have hnames : ShorterFirst (us ++ [u]) ↔
            ShorterFirst us ∧
              ∀ g ∈ firstSeen (us.map IpUpdate.hostname), ¬ u.hostname <+: g := by
          rw [ShorterFirst, List.map_append, List.map_singleton,
            firstSeen_concat_of_not_mem hold, Separated, List.pairwise_append]
          simp [ShorterFirst, Separated]
        rcases ih with ⟨hs, hitems⟩ | ⟨hs, hpos⟩
        · rw [hitems]
          by_cases hnew : ∀ g ∈ firstSeen (us.map IpUpdate.hostname), ¬ u.hostname <+: g
          · refine .inl ⟨hnames.mpr ⟨hs, hnew⟩, ?_⟩
            rw [hostMap_concat]
            exact insertItem_blocks (by rwa [hostMap_keys]) (.inr (by rwa [hostMap_keys]))
          · refine .inr ⟨fun h => hnew (hnames.mp h).2, ?_⟩
            push Not at hnew
            obtain ⟨g, hg, hp⟩ := hnew
            refine debris_insertItem_pos ?_ (by rwa [hostMap_keys]) hp
            rw [hostMap_keys]
            exact fun h => hold (mem_firstSeen.mp h)
        · exact .inr ⟨fun h => hs (hnames.mp h).1,
            lt_of_lt_of_le hpos (debris_le_insertItem _ _ _)⟩

theorem debris_blocks (es : List (Text × Text)) : debris (blocks es) = 0 := by
  simp [debris, blocks, List.countP_map, Function.comp_def]

theorem blocks_clean {us : List IpUpdate} (hu : ∀ u ∈ us, Clean u.hostname ∧ Clean u.ip) :
    ∀ i ∈ blocks (hostMap us).entries, i.Clean := by
  intro i hi
  obtain ⟨e, he, rfl⟩ := List.mem_map.mp hi
  obtain ⟨u, hmem, rfl⟩ := List.mem_map.mp (mem_insertAll he)
  exact hu u hmem

end MapView

section Content

/-- Neither fixed marker text occurs. -/
structure NoMarkerText (c : Text) : Prop where
  noBegin : ¬ beginMarker [] <:+: c
  noEnd : ¬ endMarker [] <:+: c

/-- A managed name and its address; of the name only a line break and the marker
character are excluded. -/
structure WellFormed (u : IpUpdate) : Prop where
  noNewline : '\n' ∉ u.hostname
  noHash : '#' ∉ u.hostname
  address : ∃ a : Ipv4Addr, u.ip = a.toString

theorem WellFormed.clean {u : IpUpdate} (h : WellFormed u) : Clean u.hostname ∧ Clean u.ip := by
  obtain ⟨a, ha⟩ := h.address
  refine ⟨⟨h.noNewline, h.noHash⟩, ?_, ?_⟩ <;> rw [ha] <;> intro hm <;>
    rcases Ipv4Addr.of_mem_toString hm with hd | hd <;> simp at hd

theorem NoMarkerText.find_none {c pat : Text} (hc : NoMarkerText c)
    (hp : beginMarker [] <+: pat ∨ endMarker [] <+: pat) : find pat c = none := by
  rw [find_eq_none_iff]
  intro hi
  rcases hp with hp | hp
  · exact hc.noBegin (hp.isInfix.trans hi)
  · exact hc.noEnd (hp.isInfix.trans hi)

theorem NoMarkerText.unmarked {c h : Text} (hc : NoMarkerText c) (hn : '\n' ∉ h) :
    Unmarked h (closed '\n' c) := by
  have hb := hc.find_none (.inl (beginMarker_prefix_iff.mpr List.nil_prefix) :
    beginMarker [] <+: beginMarker h ∨ endMarker [] <+: beginMarker h)
  have he := hc.find_none (.inr (endMarker_prefix_iff.mpr List.nil_prefix) :
    beginMarker [] <+: endMarker h ∨ endMarker [] <+: endMarker h)
  refine ⟨terminated_closed _ _, ?_, ?_⟩
  · rwa [find_closed (beginMarker_ne_nil h) (newline_not_mem_beginMarker hn)]
  · rwa [find_closed (endMarker_ne_nil h) (newline_not_mem_endMarker hn)]

/-- The initial content, closed by the first update, and one block per name in order
of first appearance, each with the last address given for it. -/
def mapContent (c0 : Text) (us : List IpUpdate) : Text :=
  (if us = [] then c0 else closed '\n' c0) ++
    (firstSeen (us.map IpUpdate.hostname)).flatMap fun h => newBlock h (lastValue (pairs us) h)

theorem mapContent_cons (c0 : Text) (u : IpUpdate) (us : List IpUpdate) :
    mapContent c0 (u :: us) =
      closed '\n' c0 ++ render (blocks (hostMap (u :: us)).entries) := by
  rw [mapContent, if_neg (by simp), hostMap, entries_insertAll]
  simp [render, blocks, pairs, List.flatMap_map, Function.comp_def, Item.text]

theorem applyUpdates_closed {c0 : Text} (hc : NoMarkerText c0) {u : IpUpdate}
    {us : List IpUpdate} (hu : ∀ v ∈ u :: us, WellFormed v) :
    applyUpdates c0 (u :: us) =
        closed '\n' c0 ++ render (insertItems [] (u :: us)) ∧
      ∀ i ∈ insertItems [] (u :: us), i.Clean := by
  have hclean : ∀ v ∈ u :: us, Clean v.hostname ∧ Clean v.ip := fun v hv => (hu v hv).clean
  have hbase : ∀ v ∈ u :: us, Unmarked v.hostname (closed '\n' c0) :=
    fun v hv => hc.unmarked (hu v hv).noNewline
  have hrun := applyUpdates_render hclean hbase (by simp : ∀ i ∈ ([] : List Item), i.Clean)
  have hfirst : applyUpdate c0 u = applyUpdate (closed '\n' c0) u := by
    have hb := hc.find_none (.inl (beginMarker_prefix_iff.mpr List.nil_prefix) :
      beginMarker [] <+: beginMarker u.hostname ∨ endMarker [] <+: beginMarker u.hostname)
    rw [applyUpdate, applyUpdate, replaceOrAppend_append _ (.inl hb),
      replaceOrAppend_append _ (.inl (hbase u (by simp)).noBegin),
      closed_of_terminated (terminated_closed _ _)]
  rw [applyUpdates_cons, hfirst, ← applyUpdates_cons]
  simpa using hrun

/-- The file refines the map exactly when no update meets a longer name before its own. -/
theorem applyUpdates_eq_mapContent_iff (c0 : Text) (us : List IpUpdate)
    (hc : NoMarkerText c0) (hu : ∀ u ∈ us, WellFormed u) :
    applyUpdates c0 us = mapContent c0 us ↔ ShorterFirst us := by
  cases us with
  | nil => simp [mapContent, firstSeen, ShorterFirst, Separated]
  | cons u us =>
      obtain ⟨hrun, hclean⟩ := applyUpdates_closed hc hu
      rw [hrun, mapContent_cons, List.append_right_inj]
      rcases insertItems_cases (u :: us) with ⟨hs, hitems⟩ | ⟨hs, hpos⟩
      · simp [hs, hitems]
      · refine iff_of_false (fun he => ?_) hs
        -- debris costs a newline that brings no marker character
        have hitems := count_render hclean
        have hblocks := count_render (blocks_clean fun v hv => (hu v hv).clean)
        rw [debris_blocks] at hblocks
        rw [he] at hitems
        omega

/-- The short name comes first, and comes back after the longer one. -/
def nestedRun : List IpUpdate :=
  [⟨"nas".toList, (Ipv4Addr.mk 10 0 0 1).toString⟩,
    ⟨"nas.home".toList, (Ipv4Addr.mk 10 0 0 2).toString⟩,
    ⟨"nas".toList, (Ipv4Addr.mk 10 0 0 3).toString⟩]

theorem nestedRun_refines :
    applyUpdates "127.0.0.1 localhost".toList nestedRun =
      mapContent "127.0.0.1 localhost".toList nestedRun := by
  refine (applyUpdates_eq_mapContent_iff _ _ ⟨by decide, by decide⟩ ?_).mpr (by decide)
  intro u hu
  simp only [nestedRun, List.mem_cons, List.not_mem_nil, or_false] at hu
  rcases hu with rfl | rfl | rfl
  · exact ⟨by decide, by decide, _, rfl⟩
  · exact ⟨by decide, by decide, _, rfl⟩
  · exact ⟨by decide, by decide, _, rfl⟩

/-- The longer name is already in the file when the short one is first updated. -/
def longerFirst : List IpUpdate :=
  [⟨"nas.home".toList, (Ipv4Addr.mk 10 0 0 2).toString⟩,
    ⟨"nas".toList, (Ipv4Addr.mk 10 0 0 1).toString⟩]

/-- The short name takes over the block of the longer one, which loses its address. -/
theorem longerFirst_breaks :
    NoMarkerText [] ∧
      (∀ u ∈ longerFirst, u.hostname ≠ [] ∧ ∀ c ∈ u.hostname, c.isWhitespace = false ∧ c ≠ '#') ∧
      (∀ u ∈ longerFirst, ∃ a : Ipv4Addr, u.ip = a.toString) ∧
      applyUpdates [] longerFirst ≠ mapContent [] longerFirst := by
  refine ⟨⟨by decide, by decide⟩, by simp [longerFirst], ?_, by decide⟩
  intro u hu
  simp only [longerFirst, List.mem_cons, List.not_mem_nil, or_false] at hu
  rcases hu with rfl | rfl
  · exact ⟨_, rfl⟩
  · exact ⟨_, rfl⟩

end Content

end DnslessHomelab.ManagedBlocks
