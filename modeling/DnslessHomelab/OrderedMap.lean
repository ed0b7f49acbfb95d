import Mathlib.Data.List.Basic
import Mathlib.Data.List.Induction
import Mathlib.Data.List.Nodup

/-!
# Maps in order of first insertion

An association list without repeated keys. Inserting at a known key replaces the
value where it stands; a new key goes to the end. After a run of insertions the
keys stand in order of first appearance and each carries its last value.
-/
namespace DnslessHomelab.OrderedMap
variable {K V : Type*} [DecidableEq K]

/-- Replacement in place, or a new last entry. -/
def insertEntry (k : K) (v : V) : List (K × V) → List (K × V)
  | [] => [(k, v)]
  | e :: es => if e.1 = k then (k, v) :: es else e :: insertEntry k v es

theorem insertEntry_keys (k : K) (v : V) (es : List (K × V)) :
    (insertEntry k v es).map Prod.fst =
      if k ∈ es.map Prod.fst then es.map Prod.fst else es.map Prod.fst ++ [k] := by
  induction es with
  | nil => rfl
  | cons e es ih =>
      by_cases h : e.1 = k
      · simp [insertEntry, h]
      · have hk : k ≠ e.1 := Ne.symm h
        simp only [insertEntry, h, if_false, List.map_cons, List.mem_cons, hk, false_or, ih]
        split_ifs <;> rfl

theorem mem_insertEntry {k : K} {v : V} {es : List (K × V)} {e : K × V}
    (h : e ∈ insertEntry k v es) : e = (k, v) ∨ e ∈ es := by
  induction es with
  | nil => exact .inl (by simpa [insertEntry] using h)
  | cons d es ih =>
      simp only [insertEntry] at h
      split_ifs at h with hd
      · exact (List.mem_cons.mp h).imp_right (List.mem_cons_of_mem d)
      · rcases List.mem_cons.mp h with rfl | h
        · exact .inr (by simp)
        · exact (ih h).imp_right (List.mem_cons_of_mem d)

/-- The keys never repeat. -/
structure Map (K V : Type*) where
  entries : List (K × V)
  nodup : (entries.map Prod.fst).Nodup

def empty : Map K V := ⟨[], List.nodup_nil⟩

def Map.insert (m : Map K V) (k : K) (v : V) : Map K V where
  entries := insertEntry k v m.entries
  nodup := by
    rw [insertEntry_keys]
    split_ifs with h
    · exact m.nodup
    · exact List.concat_eq_append ▸ m.nodup.concat h

def Map.insertAll (m : Map K V) (us : List (K × V)) : Map K V :=
  us.foldl (fun m u => m.insert u.1 u.2) m

/-- Every entry was inserted as it stands. -/
theorem mem_insertAll {us : List (K × V)} {e : K × V}
    (h : e ∈ ((empty : Map K V).insertAll us).entries) : e ∈ us := by
  induction us using List.reverseRecOn with
  | nil => simp [Map.insertAll, empty] at h
  | append_singleton us u ih =>
      simp only [Map.insertAll, List.foldl_append, List.foldl_cons, List.foldl_nil,
        Map.insert] at h
      rcases mem_insertEntry h with rfl | h
      · simp
      · exact List.mem_append_left _ (ih h)

/-- Keys in order of first appearance. -/
def firstSeen (ks : List K) : List K := ks.eraseDups

/-- The value of the last insertion at `k`. -/
def lastValue [Inhabited V] (us : List (K × V)) (k : K) : V :=
  ((us.filter fun u => u.1 = k).getLast?.map Prod.snd).getD default

theorem mem_firstSeen {k : K} {ks : List K} : k ∈ firstSeen ks ↔ k ∈ ks :=
  List.mem_eraseDups

theorem firstSeen_concat_of_mem {ks : List K} {k : K} (h : k ∈ ks) :
    firstSeen (ks ++ [k]) = firstSeen ks := by
  simp [firstSeen, List.eraseDups_append, List.removeAll, h]

theorem firstSeen_concat_of_not_mem {ks : List K} {k : K} (h : k ∉ ks) :
    firstSeen (ks ++ [k]) = firstSeen ks ++ [k] := by
  simp [firstSeen, List.eraseDups_append, List.removeAll, List.eraseDups_cons, h]

theorem lastValue_concat [Inhabited V] (us : List (K × V)) (k l : K) (v : V) :
    lastValue (us ++ [(k, v)]) l = if k = l then v else lastValue us l := by
  unfold lastValue
  rw [List.filter_append]
  split_ifs with h
  · simp [h]
  · simp [h]

theorem insertEntry_of_mem {f : K → V} {k : K} (v : V) {ks : List K} (hnd : ks.Nodup)
    (h : k ∈ ks) :
    insertEntry k v (ks.map fun l => (l, f l)) =
      ks.map fun l => (l, if k = l then v else f l) := by
  induction ks with
  | nil => simp at h
  | cons l ks ih =>
      obtain ⟨hl, hks⟩ := List.nodup_cons.mp hnd
      by_cases hkl : l = k
      · subst hkl
        have htail : ks.map (fun x => (x, if l = x then v else f x)) =
            ks.map fun x => (x, f x) := by
          apply List.map_congr_left
          intro x hx
          have hlx : l ≠ x := fun he => hl (he ▸ hx)
          simp [hlx]
        simp [insertEntry, htail]
      · have hk : k ∈ ks := by simpa [Ne.symm hkl] using h
        simp [insertEntry, hkl, ih hks hk, Ne.symm hkl]

theorem insertEntry_of_not_mem {f : K → V} {k : K} (v : V) {ks : List K} (h : k ∉ ks) :
    insertEntry k v (ks.map fun l => (l, f l)) = (ks.map fun l => (l, f l)) ++ [(k, v)] := by
  induction ks with
  | nil => rfl
  | cons l ks ih =>
      simp only [List.mem_cons, not_or] at h
      simp [insertEntry, Ne.symm h.1, ih h.2]

/-- A run of insertions: keys by first appearance, values by last insertion. -/
theorem entries_insertAll [Inhabited V] (us : List (K × V)) :
    ((empty : Map K V).insertAll us).entries =
      (firstSeen (us.map Prod.fst)).map fun k => (k, lastValue us k) := by
  induction us using List.reverseRecOn with
  | nil => rfl
  | append_singleton us u ih =>
      obtain ⟨k, v⟩ := u
      have hkeys : (firstSeen (us.map Prod.fst)).Nodup := by
        have hn := ((empty : Map K V).insertAll us).nodup
        rw [ih, List.map_map] at hn
        simpa [Function.comp_def] using hn
      have hstep : ((empty : Map K V).insertAll (us ++ [(k, v)])).entries =
          insertEntry k v ((empty : Map K V).insertAll us).entries := by
        simp [Map.insertAll, Map.insert]
      rw [hstep, ih, List.map_append, List.map_singleton]
      simp only [lastValue_concat]
      by_cases hk : k ∈ us.map Prod.fst
      · rw [firstSeen_concat_of_mem hk, insertEntry_of_mem v hkeys (mem_firstSeen.mpr hk)]
      · rw [firstSeen_concat_of_not_mem hk,
          insertEntry_of_not_mem v fun h => hk (mem_firstSeen.mp h), List.map_append]
        have hother : ∀ l ∈ firstSeen (us.map Prod.fst), k ≠ l :=
          fun l hl he => hk (mem_firstSeen.mp (he ▸ hl))
        congr 1
        · exact List.map_congr_left fun l hl => by simp [hother l hl]
        · simp

end DnslessHomelab.OrderedMap
