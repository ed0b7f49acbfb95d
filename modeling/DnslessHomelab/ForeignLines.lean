import DnslessHomelab.BracketedLines
import DnslessHomelab.ReplaceOrAppend

/-!
# User lines around one host's markers

A content in which the markers of a host occur only as whole lines is updated
line by line, whatever order these lines stand in: the text operation refines the
replacement of a bracketed list. Lines outside complete blocks survive a run of
updates exactly when none of them stands between the first marker and the first
marker of the other kind.
-/
namespace DnslessHomelab.ForeignLines
open Protocol SubstringSearch LineText ReplaceOrAppend BracketedLines

/-- Every line with a marker of `h` in it is that marker. -/
structure WholeLineMarkers (h c : Text) : Prop where
  beginLine : ∀ l ∈ lines '\n' c, beginMarker h <:+: l → l = beginMarker h
  endLine : ∀ l ∈ lines '\n' c, endMarker h <:+: l → l = endMarker h

/-- The middle line of a block. -/
def addressLine (h ip : Text) : Text := ip ++ ' ' :: h

/-- Lines that are no marker of `h` and stand in no complete block of `h`. -/
def foreignLines (h c : Text) : List Text :=
  foreign (beginMarker h) (endMarker h) (lines '\n' c)

/-- Foreign lines from the first marker of `h` to the first marker of the other kind,
or to the end of the file. -/
def linesAtRisk (h c : Text) : List Text :=
  atRisk (beginMarker h) (endMarker h) (lines '\n' c)

section Markers
variable {h : Text}

/-- The texts differ in length by two, and neither short shift matches. -/
theorem not_endMarker_infix_beginMarker : ¬ endMarker h <:+: beginMarker h := by
  intro h
  obtain ⟨s, t, hst⟩ := h
  have hlen := congrArg List.length hst
  simp only [List.length_append, length_endMarker, length_beginMarker] at hlen
  match s with
  | [] =>
      have hc : some 'E' = some 'B' := congrArg (·[2]?) hst
      simp at hc
  | [a] =>
      have hc : some '#' = some ' ' := congrArg (·[1]?) hst
      simp at hc
  | [a, b] =>
      have hc : some '#' = some 'B' := congrArg (·[2]?) hst
      simp at hc
  | a :: b :: c :: s =>
      simp only [List.length_cons] at hlen
      omega

theorem not_beginMarker_infix_endMarker : ¬ beginMarker h <:+: endMarker h := by
  intro hi
  have := hi.length_le
  simp only [length_beginMarker, length_endMarker] at this
  omega

/-- A dotted quad and a space are shorter than the fixed text of a marker. -/
theorem addressLine_length (a : Ipv4Addr) : (addressLine h a.toString).length ≤ h.length + 16 := by
  have := a.toString_length
  simp only [addressLine, List.length_append, List.length_cons]
  omega

theorem marker_not_infix_addressLine (a : Ipv4Addr) :
    ¬ beginMarker h <:+: addressLine h a.toString ∧
      ¬ endMarker h <:+: addressLine h a.toString := by
  have hl := addressLine_length (h := h) a
  constructor
  · intro hi
    have := hi.length_le
    rw [length_beginMarker] at this
    omega
  · intro hi
    have := hi.length_le
    rw [length_endMarker] at this
    omega

theorem addressLine_not_bracket (a : Ipv4Addr) :
    ¬ IsBracket (beginMarker h) (endMarker h) (addressLine h a.toString) := by
  obtain ⟨hb, he⟩ := marker_not_infix_addressLine (h := h) a
  rintro (heq | heq)
  · exact hb (heq ▸ List.infix_rfl)
  · exact he (heq ▸ List.infix_rfl)

theorem newline_not_mem_addressLine (hn : '\n' ∉ h) (a : Ipv4Addr) :
    '\n' ∉ addressLine h a.toString := by
  simp only [addressLine, List.mem_append, List.mem_cons, not_or]
  refine ⟨fun hm => ?_, by decide, hn⟩
  rcases Ipv4Addr.of_mem_toString hm with hd | hd <;> simp at hd

end Markers

section Refinement
variable {h : Text}

/-- On terminated lines the update is the update of the list of lines. -/
theorem replaceOrAppend_unlines (hn : '\n' ∉ h) (ip : Text) {ls : List Text}
    (hb : ∀ l ∈ ls, beginMarker h <:+: l → l = beginMarker h)
    (he : ∀ l ∈ ls, endMarker h <:+: l → l = endMarker h) :
    replaceOrAppend (unlines '\n' ls) h ip =
      unlines '\n' (update (beginMarker h) (endMarker h) (addressLine h ip) ls) := by
  have hblock : newBlock h ip =
      unlines '\n' [beginMarker h, addressLine h ip, endMarker h] := newBlock_eq_unlines h ip
  have hnb := beginMarker_ne_nil h
  have hne := endMarker_ne_nil h
  have hsb := newline_not_mem_beginMarker hn
  have hse := newline_not_mem_endMarker hn
  -- a marker that is no line occurs nowhere
  have hbnone : ∀ {ks}, ks ⊆ ls → beginMarker h ∉ ks → ∀ l ∈ ks, ¬ beginMarker h <:+: l :=
    fun hsub hm l hl hi => hm (hb l (hsub hl) hi ▸ hl)
  have henone : ∀ {ks}, ks ⊆ ls → endMarker h ∉ ks → ∀ l ∈ ks, ¬ endMarker h <:+: l :=
    fun hsub hm l hl hi => hm (he l (hsub hl) hi ▸ hl)
  have happend : beginMarker h ∉ ls ∨ endMarker h ∉ ls →
      replaceOrAppend (unlines '\n' ls) h ip =
        unlines '\n' (update (beginMarker h) (endMarker h) (addressLine h ip) ls) := by
    intro hmiss
    rw [update_append hmiss, replaceOrAppend_append, closed_of_terminated (terminated_unlines _),
      unlines_append, hblock]
    exact hmiss.imp
      (fun hm => find_unlines_eq_none hnb hsb (hbnone (List.Subset.refl _) hm))
      fun hm => find_unlines_eq_none hne hse (henone (List.Subset.refl _) hm)
  by_cases hmb : beginMarker h ∈ ls
  · by_cases hme : endMarker h ∈ ls
    · obtain ⟨front, back, hfront, hnf⟩ := List.eq_append_cons_of_mem hmb
      obtain ⟨before, after, hbefore, hnbef⟩ := List.eq_append_cons_of_mem hme
      have hfb : find (beginMarker h) (unlines '\n' ls) = some (unlines '\n' front).length := by
        have hsub : front ⊆ ls := hfront ▸ List.subset_append_left _ _
        rw [hfront, find_unlines_line hnb hsb (hbnone hsub hnf)]
      have hfe : find (endMarker h) (unlines '\n' ls) = some (unlines '\n' before).length := by
        have hsub : before ⊆ ls := hbefore ▸ List.subset_append_left _ _
        rw [hbefore, find_unlines_line hne hse (henone hsub hnbef)]
      have htake : (unlines '\n' ls).take (unlines '\n' front).length = unlines '\n' front := by
        rw [hfront, unlines_append, List.take_left]
      have hdrop : (unlines '\n' ls).drop ((unlines '\n' before).length + (endMarker h).length) =
          '\n' :: unlines '\n' after := by
        rw [hbefore, unlines_append, unlines_cons, ← List.append_assoc, ← List.length_append,
          List.drop_left]
      rw [replaceOrAppend_replace ip hfb hfe, htake, hdrop, hblock,
        update_split _ hfront hnf hbefore hnbef]
      simp [dropNewline]
    · exact happend (.inr hme)
  · exact happend (.inl hmb)

/-- The text operation refines the operation on lines, and keeps markers on whole lines. -/
theorem lines_replaceOrAppend (hn : '\n' ∉ h) (a : Ipv4Addr) {c : Text}
    (hw : WholeLineMarkers h c) :
    lines '\n' (replaceOrAppend c h a.toString) =
        update (beginMarker h) (endMarker h) (addressLine h a.toString) (lines '\n' c) ∧
      WholeLineMarkers h (replaceOrAppend c h a.toString) := by
  have hnl : ∀ l ∈ update (beginMarker h) (endMarker h) (addressLine h a.toString) (lines '\n' c),
      '\n' ∉ l := by
    intro l hl
    rcases mem_update hl with hl | hl
    · exact sep_not_mem_of_mem_lines hl
    · simp only [List.mem_cons, List.not_mem_nil, or_false] at hl
      rcases hl with rfl | rfl | rfl
      · exact newline_not_mem_beginMarker hn
      · exact newline_not_mem_addressLine hn a
      · exact newline_not_mem_endMarker hn
  have hlines : lines '\n' (replaceOrAppend c h a.toString) =
      update (beginMarker h) (endMarker h) (addressLine h a.toString) (lines '\n' c) := by
    rw [← lines_closed, ← replaceOrAppend_closed hn, ← unlines_lines,
      replaceOrAppend_unlines hn _ hw.beginLine hw.endLine, lines_unlines hnl]
  refine ⟨hlines, ?_, ?_⟩
  · intro l hl hi
    rw [hlines] at hl
    rcases mem_update hl with hl | hl
    · exact hw.beginLine l hl hi
    · simp only [List.mem_cons, List.not_mem_nil, or_false] at hl
      rcases hl with rfl | rfl | rfl
      · rfl
      · exact ((marker_not_infix_addressLine a).1 hi).elim
      · exact (not_beginMarker_infix_endMarker hi).elim
  · intro l hl hi
    rw [hlines] at hl
    rcases mem_update hl with hl | hl
    · exact hw.endLine l hl hi
    · simp only [List.mem_cons, List.not_mem_nil, or_false] at hl
      rcases hl with rfl | rfl | rfl
      · exact (not_endMarker_infix_beginMarker hi).elim
      · exact ((marker_not_infix_addressLine a).2 hi).elim
      · rfl

/-- One host's updates, one address after another. -/
def updatesFor (h : Text) (addresses : List Ipv4Addr) : List IpUpdate :=
  addresses.map fun a => ⟨h, a.toString⟩

theorem lines_applyUpdates (hn : '\n' ∉ h) (addresses : List Ipv4Addr) {c : Text}
    (hw : WholeLineMarkers h c) :
    lines '\n' (applyUpdates c (updatesFor h addresses)) =
      updates (beginMarker h) (endMarker h) (lines '\n' c)
        (addresses.map fun a => addressLine h a.toString) := by
  induction addresses generalizing c with
  | nil => rfl
  | cons a addresses ih =>
      obtain ⟨hlines, hw'⟩ := lines_replaceOrAppend hn a hw
      simp only [updatesFor, List.map_cons, applyUpdates_cons, updates_cons, ← hlines]
      exact ih hw'

end Refinement

/-- Foreign lines survive a run exactly when there is no update, no line is at risk, or
the only update appends. -/
theorem foreignLines_applyUpdates_iff (h c : Text) (addresses : List Ipv4Addr)
    (hn : '\n' ∉ h) (hw : WholeLineMarkers h c) :
    foreignLines h (applyUpdates c (updatesFor h addresses)) = foreignLines h c ↔
      addresses = [] ∨ linesAtRisk h c = [] ∨
        ((beginMarker h ∉ lines '\n' c ∨ endMarker h ∉ lines '\n' c) ∧
          addresses.length = 1) := by
  have hds : ∀ d ∈ addresses.map (fun a => addressLine h a.toString),
      ¬ IsBracket (beginMarker h) (endMarker h) d := by
    intro d hd
    obtain ⟨a, _, rfl⟩ := List.mem_map.mp hd
    exact addressLine_not_bracket a
  have hiff := foreign_updates_iff (beginMarker_ne_endMarker h) (lines '\n' c) hds
  rw [← lines_applyUpdates hn addresses hw] at hiff
  simpa [foreignLines, linesAtRisk] using hiff

/-- An end and a begin in the wrong order, with nothing between them. -/
def swappedMarkers : Text :=
  "10.0.0.9 printer\n# END dnsless-homelab: nas\n# BEGIN dnsless-homelab: nas\n::1 ip6".toList

theorem swappedMarkers_keep :
    foreignLines "nas".toList
        (applyUpdates swappedMarkers (updatesFor "nas".toList [⟨10, 0, 0, 1⟩, ⟨10, 0, 0, 2⟩])) =
      foreignLines "nas".toList swappedMarkers :=
  (foreignLines_applyUpdates_iff _ _ _ (by decide) ⟨by decide +kernel, by decide +kernel⟩).mpr
    (.inr (.inl (by decide +kernel)))

/-- A begin line whose end line was deleted by hand. -/
def unclosedBegin : Text := "# BEGIN dnsless-homelab: nas\n10.0.0.9 printer\n".toList

/-- The first update appends a block, the second replaces from the stray begin line. -/
theorem unclosedBegin_loses_line :
    '\n' ∉ "nas".toList ∧ WholeLineMarkers "nas".toList unclosedBegin ∧
      foreignLines "nas".toList unclosedBegin = ["10.0.0.9 printer".toList] ∧
      foreignLines "nas".toList (applyUpdates unclosedBegin
        (updatesFor "nas".toList [⟨10, 0, 0, 1⟩, ⟨10, 0, 0, 2⟩])) = [] :=
  ⟨by decide, ⟨by decide +kernel, by decide +kernel⟩, by decide +kernel, by decide +kernel⟩

end DnslessHomelab.ForeignLines
