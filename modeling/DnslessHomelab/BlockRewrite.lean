import DnslessHomelab.ForeignLines

/-!
# Rewriting one block

What an update does to a file that has the markers of its hostname. A block in
terminated surroundings is replaced exactly; what follows its end line may hold
anything. An update overwrites the previous one as long as the first begin marker
stands before the first end marker, or neither occurs: otherwise the second update
pairs a stray marker with one of the block just written.
-/
namespace DnslessHomelab.BlockRewrite
open Protocol SubstringSearch LineText ReplaceOrAppend ForeignLines

section Block
variable {h ip : Text}

/-- Where the end line of a block begins. -/
def endOffset (h ip : Text) : ℕ := (beginMarker h).length + 1 + ((addressLine h ip).length + 1)

theorem newBlock_eq (h ip : Text) :
    newBlock h ip =
      beginMarker h ++ '\n' :: (addressLine h ip ++ '\n' :: (endMarker h ++ ['\n'])) := by
  simp [newBlock, addressLine]

theorem length_newBlock (h ip : Text) :
    (newBlock h ip).length = endOffset h ip + (endMarker h).length + 1 := by
  rw [newBlock_eq]
  simp only [endOffset, List.length_append, List.length_cons, List.length_nil]
  omega

/-- The end marker of a block is not found before its end line. -/
theorem find_endMarker_newBlock (hn : '\n' ∉ h) (a : Ipv4Addr) (tail : Text) :
    find (endMarker h) (newBlock h a.toString ++ tail) = some (endOffset h a.toString) := by
  have hse := newline_not_mem_endMarker hn
  have hbegin : find (endMarker h) (beginMarker h) = none :=
    find_eq_none_iff.mpr not_endMarker_infix_beginMarker
  have haddress : find (endMarker h) (addressLine h a.toString) = none :=
    find_eq_none_iff.mpr (marker_not_infix_addressLine a).2
  rw [newBlock_eq, List.append_assoc, List.cons_append, find_append_sep (endMarker_ne_nil h) hse,
    hbegin, List.append_assoc, List.cons_append, find_append_sep (endMarker_ne_nil h) hse,
    haddress, List.append_assoc, find_zero (List.prefix_append _ _)]
  simp only [Option.none_or, Option.map_some, endOffset, Option.some.injEq]
  omega

theorem find_beginMarker_newBlock (tail : Text) :
    find (beginMarker h) (newBlock h ip ++ tail) = some 0 := by
  apply find_zero
  rw [newBlock_eq, List.append_assoc]
  exact List.prefix_append _ _

/-- What stands behind the end line of a block is left as it is. -/
theorem dropNewline_drop_newBlock (front tail : Text) :
    dropNewline ((front ++ (newBlock h ip ++ tail)).drop
      (front.length + endOffset h ip + (endMarker h).length)) = tail := by
  have hlen : front.length + endOffset h ip + (endMarker h).length =
      (front ++ (beginMarker h ++ '\n' :: (addressLine h ip ++ '\n' :: endMarker h))).length := by
    simp only [endOffset, List.length_append, List.length_cons]
    omega
  have hsplit : front ++ (newBlock h ip ++ tail) =
      (front ++ (beginMarker h ++ '\n' :: (addressLine h ip ++ '\n' :: endMarker h))) ++
        '\n' :: tail := by
    simp [newBlock_eq]
  rw [hsplit, hlen, List.drop_left]
  rfl

end Block

/-- A block in terminated surroundings is replaced, character for character. -/
theorem replaceOrAppend_exact (h ip pre body post : Text) (hn : '\n' ∉ h)
    (hpre : Terminated '\n' pre) (hbegin : ¬ beginMarker h <:+: pre)
    (hend : ¬ endMarker h <:+: pre) (hbody : Terminated '\n' body)
    (hbodyEnd : ¬ endMarker h <:+: body) :
    replaceOrAppend (pre ++ beginMarker h ++ '\n' :: body ++ endMarker h ++ '\n' :: post) h ip =
      pre ++ beginMarker h ++ '\n' :: ip ++ ' ' :: h ++ '\n' :: endMarker h ++ '\n' :: post := by
  have hsb := newline_not_mem_beginMarker hn
  have hse := newline_not_mem_endMarker hn
  have hshape : pre ++ beginMarker h ++ '\n' :: body ++ endMarker h ++ '\n' :: post =
      pre ++ (beginMarker h ++ '\n' :: (body ++ (endMarker h ++ '\n' :: post))) := by
    simp
  have hstart : find (beginMarker h)
      (pre ++ (beginMarker h ++ '\n' :: (body ++ (endMarker h ++ '\n' :: post)))) =
        some pre.length := by
    rw [find_skip (beginMarker_ne_nil h) hsb hpre (find_eq_none_iff.mpr hbegin),
      find_zero (List.prefix_append _ _)]
    simp
  have hstop : find (endMarker h)
      (pre ++ (beginMarker h ++ '\n' :: (body ++ (endMarker h ++ '\n' :: post)))) =
        some (pre.length + ((beginMarker h).length + 1 + body.length)) := by
    rw [find_skip (endMarker_ne_nil h) hse hpre (find_eq_none_iff.mpr hend),
      find_append_sep (endMarker_ne_nil h) hse,
      find_eq_none_iff.mpr not_endMarker_infix_beginMarker,
      find_skip (endMarker_ne_nil h) hse hbody (find_eq_none_iff.mpr hbodyEnd),
      find_zero (List.prefix_append _ _)]
    simp only [Option.none_or, Option.map_some, Option.some.injEq]
    omega
  have hafter : (pre ++ (beginMarker h ++ '\n' :: (body ++ (endMarker h ++ '\n' :: post)))).drop
      (pre.length + ((beginMarker h).length + 1 + body.length) + (endMarker h).length) =
        '\n' :: post := by
    have hlen : pre.length + ((beginMarker h).length + 1 + body.length) + (endMarker h).length =
        (pre ++ (beginMarker h ++ '\n' :: (body ++ endMarker h))).length := by
      simp only [List.length_append, List.length_cons]
      omega
    have hsplit : pre ++ (beginMarker h ++ '\n' :: (body ++ (endMarker h ++ '\n' :: post))) =
        (pre ++ (beginMarker h ++ '\n' :: (body ++ endMarker h))) ++ '\n' :: post := by
      simp
    rw [hsplit, hlen, List.drop_left]
  rw [hshape, replaceOrAppend_replace ip hstart hstop, hafter, List.take_left]
  simp [newBlock, dropNewline]

/-- The body holds a begin marker of its own and the rest a whole second block. -/
theorem replaceOrAppend_exact_nested :
    replaceOrAppend ("::1 ip6\n".toList ++ beginMarker "nas".toList ++
        '\n' :: "# BEGIN dnsless-homelab: nas\n".toList ++ endMarker "nas".toList ++
          '\n' :: newBlock "nas".toList "10.0.0.7".toList)
        "nas".toList "10.0.0.1".toList =
      "::1 ip6\n".toList ++ beginMarker "nas".toList ++ '\n' :: "10.0.0.1".toList ++
        ' ' :: "nas".toList ++ '\n' :: endMarker "nas".toList ++
          '\n' :: newBlock "nas".toList "10.0.0.7".toList :=
  replaceOrAppend_exact _ _ _ _ _ (by decide) (.inr ⟨"::1 ip6".toList, by decide⟩)
    (by decide +kernel) (by decide +kernel)
    (.inr ⟨"# BEGIN dnsless-homelab: nas".toList, by decide +kernel⟩) (by decide +kernel)

/-- Two offsets are both missing, or both there and in order. -/
def InOrder : Option ℕ → Option ℕ → Prop
  | none, none => True
  | some start, some stop => start < stop
  | _, _ => False

instance : ∀ start stop, Decidable (InOrder start stop)
  | none, none => isTrue trivial
  | some start, some stop => inferInstanceAs (Decidable (start < stop))
  | none, some _ | some _, none => isFalse id

/-- Neither marker occurs, or both do and the first begin comes before the first end. -/
def MarkersInOrder (h c : Text) : Prop := InOrder (find (beginMarker h) c) (find (endMarker h) c)

instance (h c : Text) : Decidable (MarkersInOrder h c) := inferInstanceAs (Decidable (InOrder _ _))

section Twice
variable {h c : Text}

/-- After an update the first begin marker stands where it stood. -/
theorem find_begin_rewritten {front rest : Text}
    (hb : find (beginMarker h) (front ++ (beginMarker h ++ rest)) = some front.length)
    (ip tail : Text) :
    find (beginMarker h) (front ++ (newBlock h ip ++ tail)) = some front.length := by
  rw [newBlock_eq, List.append_assoc]
  exact find_shared (Nat.le_refl _) (Nat.le_refl _) hb _

/-- An end marker before the first begin marker is still the first one. -/
theorem find_end_rewritten_of_lt {front rest : Text} {stop : ℕ}
    (he : find (endMarker h) (front ++ (beginMarker h ++ rest)) = some stop)
    (hlt : stop < front.length) (ip tail : Text) :
    find (endMarker h) (front ++ (newBlock h ip ++ tail)) = some stop := by
  rw [newBlock_eq, List.append_assoc]
  apply find_shared _ (Nat.le_of_lt hlt) he
  rw [length_beginMarker, length_endMarker]
  omega

/-- Otherwise the end of the written block is the first one. -/
theorem find_end_rewritten {front rest : Text} {stop : ℕ} (hn : '\n' ∉ h)
    (he : find (endMarker h) (front ++ (beginMarker h ++ rest)) = some stop)
    (hlt : front.length < stop) (a : Ipv4Addr) (tail : Text) :
    find (endMarker h) (front ++ (newBlock h a.toString ++ tail)) =
      some (front.length + endOffset h a.toString) := by
  have hlen : (endMarker h).length ≤ (beginMarker h).length := by
    rw [length_beginMarker, length_endMarker]
    omega
  have hblock := find_eq_some_iff.mp (find_endMarker_newBlock hn a tail)
  have hearly := (find_eq_some_iff.mp he).2.2
  rw [find_eq_some_iff]
  refine ⟨?_, ?_, ?_⟩
  · rw [List.length_append]
    have := hblock.1
    omega
  · rw [List.drop_append, List.drop_of_length_le (by omega), Nat.add_sub_cancel_left,
      List.nil_append]
    exact hblock.2.1
  · intro m hm hocc
    rcases Nat.lt_or_ge m front.length with hfront | hfront
    · rw [newBlock_eq, List.append_assoc, prefix_drop_shared hlen (Nat.le_of_lt hfront)] at hocc
      apply hearly m (by omega)
      rw [prefix_drop_shared hlen (Nat.le_of_lt hfront)]
      exact hocc
    · rw [List.drop_append, List.drop_of_length_le hfront, List.nil_append] at hocc
      exact hblock.2.2 (m - front.length) (by omega) hocc

theorem length_dropNewline (text : Text) : text.length ≤ (dropNewline text).length + 1 := by
  unfold dropNewline
  split_ifs
  · rw [List.length_tail]
    omega
  · omega

/-- An update that leaves the previous block standing is longer than one without it. -/
theorem overwrite_of_length {front tail more : Text} {b : Ipv4Addr}
    (hlen : tail.length + 1 < more.length) :
    ¬ front ++ newBlock h b.toString ++ dropNewline more =
      front ++ newBlock h b.toString ++ tail := by
  intro heq
  have htail := congrArg List.length (List.append_cancel_left heq)
  have := length_dropNewline more
  omega

/-- Both markers occur. -/
theorem overwrite_replace {front rest : Text} {stop : ℕ} (hn : '\n' ∉ h)
    (hb : find (beginMarker h) (front ++ (beginMarker h ++ rest)) = some front.length)
    (he : find (endMarker h) (front ++ (beginMarker h ++ rest)) = some stop)
    (a b : Ipv4Addr) :
    replaceOrAppend (replaceOrAppend (front ++ (beginMarker h ++ rest)) h a.toString) h
        b.toString =
      replaceOrAppend (front ++ (beginMarker h ++ rest)) h b.toString ↔
    front.length < stop := by
  rw [replaceOrAppend_replace a.toString hb he, replaceOrAppend_replace b.toString hb he,
    List.take_left]
  generalize dropNewline ((front ++ (beginMarker h ++ rest)).drop
    (stop + (endMarker h).length)) = tail
  have hbegin := find_begin_rewritten hb a.toString tail
  rw [← List.append_assoc] at hbegin
  rcases Nat.lt_trichotomy stop front.length with hlt | heq | hgt
  · have hend := find_end_rewritten_of_lt he hlt a.toString tail
    rw [← List.append_assoc] at hend
    rw [replaceOrAppend_replace b.toString hbegin hend, List.append_assoc front, List.take_left]
    apply iff_of_false _ (by omega)
    apply overwrite_of_length
    rw [List.length_drop, List.length_append, List.length_append, length_newBlock, endOffset,
      length_beginMarker]
    omega
  · -- one position cannot hold both markers
    have hboth := (find_eq_some_iff.mp he).2.1
    rw [heq, List.drop_left] at hboth
    have hprefix : endMarker h <+: beginMarker h := by
      apply List.prefix_of_prefix_length_le hboth (List.prefix_append _ _)
      rw [length_beginMarker, length_endMarker]
      omega
    exact absurd hprefix not_endMarker_prefix_beginMarker
  · have hend := find_end_rewritten hn he hgt a tail
    rw [← List.append_assoc] at hend
    rw [replaceOrAppend_replace b.toString hbegin hend, List.append_assoc front, List.take_left,
      dropNewline_drop_newBlock]
    exact iff_of_true rfl hgt

/-- A marker is missing. -/
theorem overwrite_append (hn : '\n' ∉ h) (hmiss : find (beginMarker h) c = none ∨
      find (endMarker h) c = none) (a b : Ipv4Addr) :
    replaceOrAppend (replaceOrAppend c h a.toString) h b.toString =
      replaceOrAppend c h b.toString ↔
    find (beginMarker h) c = none ∧ find (endMarker h) c = none := by
  have hsb := newline_not_mem_beginMarker hn
  have hse := newline_not_mem_endMarker hn
  rw [replaceOrAppend_append a.toString hmiss, replaceOrAppend_append b.toString hmiss]
  rw [← find_closed (beginMarker_ne_nil h) hsb c, ← find_closed (endMarker_ne_nil h) hse c] at hmiss ⊢
  have hclosed := terminated_closed '\n' c
  generalize closed '\n' c = head at hmiss hclosed ⊢
  have hbegin : find (beginMarker h) head = none →
      find (beginMarker h) (head ++ newBlock h a.toString) = some head.length := by
    intro hnone
    have hblock : find (beginMarker h) (newBlock h a.toString ++ []) = some 0 :=
      find_beginMarker_newBlock []
    rw [List.append_nil] at hblock
    rw [find_skip (beginMarker_ne_nil h) hsb hclosed hnone, hblock]
    simp
  have hend : find (endMarker h) head = none →
      find (endMarker h) (head ++ newBlock h a.toString) =
        some (head.length + endOffset h a.toString) := by
    intro hnone
    have hblock := find_endMarker_newBlock hn a []
    rw [List.append_nil] at hblock
    rw [find_skip (endMarker_ne_nil h) hse hclosed hnone, hblock, Option.map_some, Nat.add_comm]
  have hrest : dropNewline ((head ++ (newBlock h a.toString ++ [])).drop
      (head.length + endOffset h a.toString + (endMarker h).length)) = [] :=
    dropNewline_drop_newBlock head []
  rw [List.append_nil] at hrest
  cases hb : find (beginMarker h) head with
  | none =>
      cases he : find (endMarker h) head with
      | none =>
          rw [replaceOrAppend_replace b.toString (hbegin hb) (hend he), hrest, List.take_left]
          simp
      | some stop =>
          -- the old end marker closes the new block
          have hbound := find_bound he
          rw [replaceOrAppend_replace b.toString (hbegin hb) (find_append_left he _),
            List.take_left]
          apply iff_of_false _ (by simp)
          intro heq
          have hlen : ([] : Text).length + 1 < ((head ++ newBlock h a.toString).drop
              (stop + (endMarker h).length)).length := by
            rw [List.length_drop, List.length_append, length_newBlock, endOffset,
              length_beginMarker, List.length_nil]
            omega
          exact overwrite_of_length hlen (heq.trans (List.append_nil _).symm)
  | some start =>
      have he := hmiss.resolve_left (by simp [hb])
      have hbound := find_bound hb
      rw [replaceOrAppend_replace b.toString (find_append_left hb _) (hend he), hrest]
      apply iff_of_false _ (by simp)
      intro heq
      -- the text from the old begin marker on is gone
      have hlen := congrArg List.length heq
      rw [length_beginMarker] at hbound
      simp only [List.length_append, List.length_take, List.length_nil] at hlen
      omega

end Twice

/-- On any file, an update overwrites the previous one exactly when the markers are in
order. -/
theorem overwrite_iff (c h : Text) (a b : Ipv4Addr) (hn : '\n' ∉ h) :
    replaceOrAppend (replaceOrAppend c h a.toString) h b.toString =
      replaceOrAppend c h b.toString ↔ MarkersInOrder h c := by
  unfold MarkersInOrder
  cases hb : find (beginMarker h) c with
  | none =>
      rw [overwrite_append hn (.inl hb) a b]
      cases he : find (endMarker h) c with
      | none => simp [hb, InOrder]
      | some stop => simp [InOrder]
  | some start =>
      cases he : find (endMarker h) c with
      | none =>
          rw [overwrite_append hn (.inr he) a b]
          simp [hb, InOrder]
      | some stop =>
          obtain ⟨front, rest, rfl, rfl⟩ := find_split hb
          exact overwrite_replace hn hb he a b

/-- A second block and a stray end marker behind the first block do no harm. -/
def strayEnd : Text :=
  newBlock "nas".toList "10.0.0.7".toList ++ "# END dnsless-homelab: nas # BEGIN".toList

theorem strayEnd_overwritten :
    replaceOrAppend (replaceOrAppend strayEnd "nas".toList (Ipv4Addr.mk 10 0 0 1).toString)
        "nas".toList (Ipv4Addr.mk 10 0 0 2).toString =
      replaceOrAppend strayEnd "nas".toList (Ipv4Addr.mk 10 0 0 2).toString :=
  (overwrite_iff _ _ _ _ (by decide)).mpr (by decide +kernel)

/-- Of a block that lost its end line the first update keeps a line, and the second
one, though it repeats the first, deletes it. -/
theorem unclosedBegin_not_idempotent :
    replaceOrAppend (replaceOrAppend "# BEGIN dnsless-homelab: nas\n::1 ip6\n".toList "nas".toList
        (Ipv4Addr.mk 10 0 0 1).toString) "nas".toList (Ipv4Addr.mk 10 0 0 1).toString ≠
      replaceOrAppend "# BEGIN dnsless-homelab: nas\n::1 ip6\n".toList "nas".toList
        (Ipv4Addr.mk 10 0 0 1).toString := by
  decide +kernel

end DnslessHomelab.BlockRewrite
