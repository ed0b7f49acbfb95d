import DnslessHomelab.BlockRewrite

/-!
# How long the file gets

Updates of one hostname either settle or pile up. Where the first end marker comes
with no begin marker before it, every update pairs that end marker with the block of
the update before and keeps both; on any other file the second update has found the
place that all later ones rewrite.
-/
namespace DnslessHomelab.HostsGrowth
open Protocol SubstringSearch LineText ReplaceOrAppend ForeignLines BlockRewrite

/-- There is an end, and no begin before it. -/
def EndFirst : Option ℕ → Option ℕ → Prop
  | _, none => False
  | none, some _ => True
  | some start, some stop => stop < start

instance : ∀ start stop, Decidable (EndFirst start stop)
  | none, none | some _, none => isFalse id
  | none, some _ => isTrue trivial
  | some start, some stop => inferInstanceAs (Decidable (stop < start))

/-- The first end marker of `h` stands before every begin marker. -/
def MarkersReversed (h c : Text) : Prop :=
  EndFirst (find (beginMarker h) c) (find (endMarker h) c)

instance (h c : Text) : Decidable (MarkersReversed h c) :=
  inferInstanceAs (Decidable (EndFirst _ _))

section Appended
variable {h head : Text}

theorem find_begin_appended (hn : '\n' ∉ h) (hc : Terminated '\n' head)
    (hnone : find (beginMarker h) head = none) (ip : Text) :
    find (beginMarker h) (head ++ (newBlock h ip ++ [])) = some head.length := by
  rw [find_skip (beginMarker_ne_nil h) (newline_not_mem_beginMarker hn) hc hnone,
    find_beginMarker_newBlock, Option.map_some, Nat.zero_add]

theorem find_end_appended (hn : '\n' ∉ h) (hc : Terminated '\n' head)
    (hnone : find (endMarker h) head = none) (a : Ipv4Addr) :
    find (endMarker h) (head ++ (newBlock h a.toString ++ [])) =
      some (head.length + endOffset h a.toString) := by
  rw [find_skip (endMarker_ne_nil h) (newline_not_mem_endMarker hn) hc hnone,
    find_endMarker_newBlock hn, Option.map_some, Nat.add_comm]

end Appended

/-- One position cannot hold both markers. -/
theorem find_begin_ne_end {h c : Text} {start stop : ℕ} (hb : find (beginMarker h) c = some start)
    (he : find (endMarker h) c = some stop) : stop ≠ start := by
  intro heq
  subst heq
  obtain ⟨_, hbegin, _⟩ := find_eq_some_iff.mp hb
  obtain ⟨_, hend, _⟩ := find_eq_some_iff.mp he
  apply not_endMarker_prefix_beginMarker (List.prefix_of_prefix_length_le hend hbegin _)
  rw [length_beginMarker, length_endMarker]
  omega

@[simp] theorem applyUpdates_updatesFor_cons (c h : Text) (a : Ipv4Addr)
    (addresses : List Ipv4Addr) :
    applyUpdates c (updatesFor h (a :: addresses)) =
      applyUpdates (replaceOrAppend c h a.toString) (updatesFor h addresses) := rfl

section Grow
variable {h c : Text}

/-- The end marker stays first, and the begin and address lines written before stay in. -/
theorem reversed_step (hn : '\n' ∉ h) (hr : MarkersReversed h c) (a : Ipv4Addr) :
    MarkersReversed h (replaceOrAppend c h a.toString) ∧
      c.length + endOffset h a.toString ≤ (replaceOrAppend c h a.toString).length := by
  unfold MarkersReversed at hr
  cases he : find (endMarker h) c with
  | none => simp [he, EndFirst] at hr
  | some stop =>
      cases hb : find (beginMarker h) c with
      | none =>
          have hclosed := find_closed (beginMarker_ne_nil h) (newline_not_mem_beginMarker hn) c
          have hbegin := find_begin_appended hn (terminated_closed '\n' c) (hclosed.trans hb)
            a.toString
          have hend := (find_closed (endMarker_ne_nil h) (newline_not_mem_endMarker hn) c).trans he
          have hbound := find_bound hend
          rw [List.append_nil] at hbegin
          rw [length_endMarker] at hbound
          rw [replaceOrAppend_append a.toString (.inl hb)]
          refine ⟨?_, ?_⟩
          · unfold MarkersReversed
            rw [hbegin, find_append_left hend]
            show stop < _
            omega
          · have hlen : c.length ≤ (closed '\n' c).length := by
              rcases closed_cases '\n' c with ⟨hc, _⟩ | ⟨hc, _⟩ <;> simp [hc]
            rw [List.length_append, length_newBlock]
            omega
      | some start =>
          obtain ⟨front, rest, rfl, rfl⟩ := find_split hb
          have hlt : stop < front.length := by simpa [he, hb, EndFirst] using hr
          rw [replaceOrAppend_replace a.toString hb he, List.take_left, List.append_assoc]
          refine ⟨?_, ?_⟩
          · unfold MarkersReversed
            rw [find_begin_rewritten hb, find_end_rewritten_of_lt he hlt]
            exact hlt
          · have hrest := length_dropNewline
              ((front ++ (beginMarker h ++ rest)).drop (stop + (endMarker h).length))
            have hbound := find_bound he
            rw [List.length_drop] at hrest
            simp only [List.length_append, length_newBlock] at hrest hbound ⊢
            omega

/-- The length of the begin line and the address line, newlines included, for each of the
addresses. -/
def blockHeads (h : Text) : List Ipv4Addr → ℕ
  | [] => 0
  | a :: addresses => endOffset h a.toString + blockHeads h addresses

theorem reversed_updates (hn : '\n' ∉ h) (hr : MarkersReversed h c) (addresses : List Ipv4Addr) :
    MarkersReversed h (applyUpdates c (updatesFor h addresses)) := by
  induction addresses generalizing c with
  | nil => exact hr
  | cons a addresses ih => exact ih (reversed_step hn hr a).1

/-- Every update makes the file longer by at least its begin line and its address line. -/
theorem reversed_grows (hn : '\n' ∉ h) (hr : MarkersReversed h c) (addresses : List Ipv4Addr) :
    c.length + blockHeads h addresses ≤ (applyUpdates c (updatesFor h addresses)).length := by
  induction addresses generalizing c with
  | nil => exact Nat.le_refl _
  | cons a addresses ih =>
      obtain ⟨hr', hlen⟩ := reversed_step hn hr a
      have hrun := ih hr'
      rw [applyUpdates_updatesFor_cons, blockHeads]
      omega

end Grow

section Settle
variable {h c front tail : Text}

/-- Whatever address the block between these texts has, its markers are the first ones. -/
def Enclosed (h front tail : Text) : Prop :=
  ∀ a : Ipv4Addr,
    find (beginMarker h) (front ++ (newBlock h a.toString ++ tail)) = some front.length ∧
      find (endMarker h) (front ++ (newBlock h a.toString ++ tail)) =
        some (front.length + endOffset h a.toString)

theorem Enclosed.replace (hs : Enclosed h front tail) (a b : Ipv4Addr) :
    replaceOrAppend (front ++ (newBlock h a.toString ++ tail)) h b.toString =
      front ++ (newBlock h b.toString ++ tail) := by
  obtain ⟨hbegin, hend⟩ := hs a
  rw [replaceOrAppend_replace b.toString hbegin hend, List.take_left, dropNewline_drop_newBlock,
    List.append_assoc]

theorem Enclosed.updates (hs : Enclosed h front tail) (a : Ipv4Addr)
    (addresses : List Ipv4Addr) :
    applyUpdates (front ++ (newBlock h a.toString ++ tail)) (updatesFor h addresses) =
      front ++ (newBlock h (addresses.getLastD a).toString ++ tail) := by
  induction addresses generalizing a with
  | nil => rfl
  | cons b addresses ih =>
      rw [applyUpdates_updatesFor_cons, hs.replace a b, List.getLastD_cons, ih b]

theorem enclosed_of_lt {rest : Text} {stop : ℕ} (hn : '\n' ∉ h)
    (hb : find (beginMarker h) (front ++ (beginMarker h ++ rest)) = some front.length)
    (he : find (endMarker h) (front ++ (beginMarker h ++ rest)) = some stop)
    (hlt : front.length < stop) (tail : Text) : Enclosed h front tail := by
  intro a
  exact ⟨find_begin_rewritten hb a.toString tail, find_end_rewritten hn he hlt a tail⟩

/-- With the markers in order one update finds the place. -/
theorem settles_once (hn : '\n' ∉ h) (ho : MarkersInOrder h c) :
    ∃ front tail, Enclosed h front tail ∧ ∀ a : Ipv4Addr,
      replaceOrAppend c h a.toString = front ++ (newBlock h a.toString ++ tail) := by
  unfold MarkersInOrder at ho
  cases hb : find (beginMarker h) c with
  | none =>
      cases he : find (endMarker h) c with
      | some stop => simp [hb, he, InOrder] at ho
      | none =>
          have hclosed := terminated_closed '\n' c
          have hfb := find_closed (beginMarker_ne_nil h) (newline_not_mem_beginMarker hn) c
          have hfe := find_closed (endMarker_ne_nil h) (newline_not_mem_endMarker hn) c
          refine ⟨closed '\n' c, [], ?_, ?_⟩
          · intro a
            exact ⟨find_begin_appended hn hclosed (hfb.trans hb) a.toString,
              find_end_appended hn hclosed (hfe.trans he) a⟩
          · intro a
            rw [replaceOrAppend_append a.toString (.inl hb), List.append_nil]
  | some start =>
      cases he : find (endMarker h) c with
      | none => simp [hb, he, InOrder] at ho
      | some stop =>
          obtain ⟨front, rest, rfl, rfl⟩ := find_split hb
          have hlt : front.length < stop := by simpa [hb, he, InOrder] using ho
          refine ⟨front, dropNewline ((front ++ (beginMarker h ++ rest)).drop
            (stop + (endMarker h).length)), enclosed_of_lt hn hb he hlt _, ?_⟩
          intro a
          rw [replaceOrAppend_replace a.toString hb he, List.take_left, List.append_assoc]

/-- Otherwise, unless they are reversed, two updates do. -/
theorem settles_twice (hn : '\n' ∉ h) (hr : ¬ MarkersReversed h c) :
    ∃ front tail, Enclosed h front tail ∧ ∀ a b : Ipv4Addr,
      replaceOrAppend (replaceOrAppend c h a.toString) h b.toString =
        front ++ (newBlock h b.toString ++ tail) := by
  by_cases ho : MarkersInOrder h c
  · obtain ⟨front, tail, hs, honce⟩ := settles_once hn ho
    refine ⟨front, tail, hs, ?_⟩
    intro a b
    rw [honce a, hs.replace a b]
  · unfold MarkersReversed at hr
    unfold MarkersInOrder at ho
    cases he : find (endMarker h) c with
    | some stop =>
        cases hb : find (beginMarker h) c with
        | none => simp [hb, he, EndFirst] at hr
        | some start =>
            have hne := find_begin_ne_end hb he
            simp only [hb, he, EndFirst, InOrder] at hr ho
            omega
    | none =>
        cases hb : find (beginMarker h) c with
        | none => simp [hb, he, InOrder] at ho
        | some start =>
            -- the appended block brings the end marker that the old begin marker lacks
            have hclosed := terminated_closed '\n' c
            have hfb : find (beginMarker h) (closed '\n' c) = some start := by
              rw [find_closed (beginMarker_ne_nil h) (newline_not_mem_beginMarker hn), hb]
            have hfe : find (endMarker h) (closed '\n' c) = none := by
              rw [find_closed (endMarker_ne_nil h) (newline_not_mem_endMarker hn), he]
            obtain ⟨front, rest, hsplit, hstart⟩ := find_split hfb
            subst hstart
            have hfind : ∀ a : Ipv4Addr,
                find (beginMarker h) (closed '\n' c ++ (newBlock h a.toString ++ [])) =
                    some front.length ∧
                  find (endMarker h) (closed '\n' c ++ (newBlock h a.toString ++ [])) =
                    some ((closed '\n' c).length + endOffset h a.toString) := fun a =>
              ⟨find_append_left hfb _, find_end_appended hn hclosed hfe a⟩
            have hs : Enclosed h front [] := by
              obtain ⟨hbegin, hend⟩ := hfind ⟨0, 0, 0, 0⟩
              have hlen := congrArg List.length hsplit
              simp only [List.length_append, length_beginMarker] at hlen
              generalize (closed '\n' c).length = k at hlen hend
              rw [hsplit, List.append_assoc, List.append_assoc] at hbegin hend
              exact enclosed_of_lt hn hbegin hend (by omega) []
            refine ⟨front, [], hs, ?_⟩
            intro a b
            obtain ⟨hbegin, hend⟩ := hfind a
            have hreplace := replaceOrAppend_replace b.toString hbegin hend
            rw [dropNewline_drop_newBlock, List.append_nil, hsplit, List.append_assoc,
              List.take_left, ← List.append_assoc front, ← hsplit] at hreplace
            rw [replaceOrAppend_append a.toString (.inr he), hreplace, List.append_assoc]

/-- With the markers in order only the last update shows. -/
theorem updates_in_order (hn : '\n' ∉ h) (ho : MarkersInOrder h c) (a : Ipv4Addr)
    (addresses : List Ipv4Addr) :
    applyUpdates c (updatesFor h (a :: addresses)) =
      replaceOrAppend c h (addresses.getLastD a).toString := by
  obtain ⟨front, tail, hs, honce⟩ := settles_once hn ho
  rw [applyUpdates_updatesFor_cons, honce a, hs.updates a addresses, honce]

end Settle

/-- On every file the updates of one hostname either pile up, each of them adding at least
the length of its begin line and its address line, or settle on one block in fixed
surroundings. -/
theorem grows_or_settles (h c : Text) (hn : '\n' ∉ h) :
    (MarkersReversed h c → ∀ earlier later : List Ipv4Addr,
      (applyUpdates c (updatesFor h earlier)).length + blockHeads h later ≤
        (applyUpdates c (updatesFor h (earlier ++ later))).length) ∧
    (¬ MarkersReversed h c → ∃ front tail, ∀ (a b : Ipv4Addr) (addresses : List Ipv4Addr),
      applyUpdates c (updatesFor h (a :: b :: addresses)) =
        front ++ (newBlock h (addresses.getLastD b).toString ++ tail)) := by
  constructor
  · intro hr earlier later
    have hsplit : applyUpdates c (updatesFor h (earlier ++ later)) =
        applyUpdates (applyUpdates c (updatesFor h earlier)) (updatesFor h later) := by
      rw [updatesFor, List.map_append]
      exact List.foldl_append ..
    rw [hsplit]
    exact reversed_grows hn (reversed_updates hn hr earlier) later
  · intro hr
    obtain ⟨front, tail, hs, htwice⟩ := settles_twice hn hr
    refine ⟨front, tail, ?_⟩
    intro a b addresses
    have hrun := hs.updates b addresses
    rw [← htwice a b] at hrun
    exact hrun

/-- The end line of a block whose begin line was deleted by hand. -/
def unopenedEnd : Text := "10.0.0.7 nas\n# END dnsless-homelab: nas\n".toList

theorem unopenedEnd_grows :
    '\n' ∉ "nas".toList ∧ MarkersReversed "nas".toList unopenedEnd ∧
      ∀ (earlier : List Ipv4Addr) (a : Ipv4Addr),
        (applyUpdates unopenedEnd (updatesFor "nas".toList earlier)).length +
            blockHeads "nas".toList [a] ≤
          (applyUpdates unopenedEnd (updatesFor "nas".toList (earlier ++ [a]))).length :=
  ⟨by decide, by decide +kernel, fun earlier a =>
    (grows_or_settles "nas".toList unopenedEnd (by decide)).1 (by decide +kernel) earlier [a]⟩

end DnslessHomelab.HostsGrowth
