import Mathlib.Logic.Function.Basic
import Mathlib.Data.Option.Basic
import Mathlib.Data.List.Basic

/-!
# A directory of files addressed by inode

Names point to inodes, descriptors are inodes, and data belongs to the inode: an
open descriptor keeps writing to its file after the name has moved. No two names
share an inode. `read` is the view by name; every operation has one lemma for
the name it is about and one for the others.
-/
namespace DnslessHomelab.InodeStore

structure Disk (N B : Type*) where
  inode : N → Option ℕ
  data : ℕ → List B
  next : ℕ
  inode_inj : ∀ {m n i}, inode m = some i → inode n = some i → m = n
  inode_lt : ∀ {n i}, inode n = some i → i < next

namespace Disk
variable {N B : Type*}

def empty : Disk N B where
  inode _ := none
  data _ := []
  next := 0
  inode_inj h := by cases h
  inode_lt h := by cases h

def read (d : Disk N B) (n : N) : Option (List B) := (d.inode n).map d.data

/-- The inode that opening the name for writing gives: its own, or a new one. -/
def descriptor (d : Disk N B) (n : N) : ℕ := (d.inode n).getD d.next

theorem descriptor_of_some {d : Disk N B} {n : N} {i : ℕ} (h : d.inode n = some i) :
    d.descriptor n = i := by simp [descriptor, h]

theorem eq_of_inode_eq_descriptor {d : Disk N B} {m n : N}
    (h : d.inode m = some (d.descriptor n)) : m = n := by
  cases hn : d.inode n with
  | none =>
      rw [descriptor, hn] at h
      exact absurd (d.inode_lt h) (Nat.lt_irrefl _)
  | some i =>
      rw [descriptor_of_some hn] at h
      exact d.inode_inj h hn

/-- Bytes at an offset, with filling when the offset lies past the end. -/
def overwrite (fill : B) (old : List B) (offset : ℕ) (chunk : List B) : List B :=
  old.take offset ++ List.replicate (offset - old.length) fill ++ chunk ++
    old.drop (offset + chunk.length)

@[simp] theorem overwrite_end (fill : B) (old chunk : List B) :
    overwrite fill old old.length chunk = old ++ chunk := by
  simp [overwrite]

def writeAt (d : Disk N B) (fill : B) (file offset : ℕ) (chunk : List B) : Disk N B :=
  { d with data := Function.update d.data file (overwrite fill (d.data file) offset chunk) }

@[simp] theorem inode_writeAt (d : Disk N B) (fill : B) (file offset : ℕ) (chunk : List B) :
    (d.writeAt fill file offset chunk).inode = d.inode := rfl

theorem data_writeAt (d : Disk N B) (fill : B) (file offset : ℕ) (chunk : List B) :
    (d.writeAt fill file offset chunk).data file =
      overwrite fill (d.data file) offset chunk :=
  Function.update_self ..

theorem data_writeAt_of_ne {d : Disk N B} {m n : N} {file i : ℕ} (hn : d.inode n = some file)
    (hmn : m ≠ n) (hm : d.inode m = some i) (fill : B) (offset : ℕ) (chunk : List B) :
    (d.writeAt fill file offset chunk).data i = d.data i := by
  apply Function.update_of_ne
  intro heq
  subst heq
  exact hmn (d.inode_inj hm hn)

theorem read_writeAt_of_ne {d : Disk N B} {m n : N} {file : ℕ} (hn : d.inode n = some file)
    (hmn : m ≠ n) (fill : B) (offset : ℕ) (chunk : List B) :
    (d.writeAt fill file offset chunk).read m = d.read m := by
  unfold read
  rw [inode_writeAt]
  cases hm : d.inode m with
  | none => rfl
  | some i => exact congrArg some (data_writeAt_of_ne hn hmn hm fill offset chunk)

variable [DecidableEq N]

/-- Opening for writing creates the file or empties it. -/
def openTruncate (d : Disk N B) (n : N) : Disk N B where
  inode := Function.update d.inode n (some (d.descriptor n))
  data := Function.update d.data (d.descriptor n) []
  next := max d.next (d.descriptor n + 1)
  inode_inj := by
    intro m k i hm hk
    rw [Function.update_apply] at hm hk
    split_ifs at hm hk with h₁ h₂ h₂
    · rw [h₁, h₂]
    · cases hm
      exact absurd (eq_of_inode_eq_descriptor hk) h₂
    · cases hk
      exact absurd (eq_of_inode_eq_descriptor hm) h₁
    · exact d.inode_inj hm hk
  inode_lt := by
    intro m i hm
    rw [Function.update_apply] at hm
    split_ifs at hm
    · cases hm
      omega
    · have := d.inode_lt hm
      omega

theorem inode_openTruncate (d : Disk N B) (n : N) :
    (d.openTruncate n).inode n = some (d.descriptor n) :=
  Function.update_self ..

theorem data_openTruncate (d : Disk N B) (n : N) :
    (d.openTruncate n).data (d.descriptor n) = [] :=
  Function.update_self ..

theorem inode_openTruncate_of_ne {d : Disk N B} {m n : N} (h : m ≠ n) :
    (d.openTruncate n).inode m = d.inode m :=
  Function.update_of_ne h ..

theorem data_openTruncate_of_ne {d : Disk N B} {m n : N} (h : m ≠ n) {i : ℕ}
    (hi : d.inode m = some i) : (d.openTruncate n).data i = d.data i := by
  apply Function.update_of_ne
  intro heq
  subst heq
  exact h (eq_of_inode_eq_descriptor hi)

theorem read_openTruncate_of_ne {d : Disk N B} {m n : N} (h : m ≠ n) :
    (d.openTruncate n).read m = d.read m := by
  unfold read
  rw [inode_openTruncate_of_ne h]
  cases hm : d.inode m with
  | none => rfl
  | some i => exact congrArg some (data_openTruncate_of_ne h hm)

/-- The target name is replaced in one step; a missing source changes nothing. -/
def rename (d : Disk N B) (source target : N) : Disk N B where
  inode := match d.inode source with
    | none => d.inode
    | some i => Function.update (Function.update d.inode source none) target (some i)
  data := d.data
  next := d.next
  inode_inj := by
    intro m n i hm hn
    cases hs : d.inode source with
    | none =>
        simp only [hs] at hm hn
        exact d.inode_inj hm hn
    | some j =>
        simp only [hs, Function.update_apply] at hm hn
        split_ifs at hm hn with h₁ h₂ h₃ h₄ h₅
        · rw [h₁, h₂]
        · cases hm
          exact absurd (d.inode_inj hn hs) h₃
        · cases hn
          exact absurd (d.inode_inj hm hs) h₄
        · exact d.inode_inj hm hn
  inode_lt := by
    intro m i hm
    cases hs : d.inode source with
    | none =>
        simp only [hs] at hm
        exact d.inode_lt hm
    | some j =>
        simp only [hs, Function.update_apply] at hm
        split_ifs at hm
        · cases hm
          exact d.inode_lt hs
        · exact d.inode_lt hm

section Rename
variable {d : Disk N B} {source target : N} {i : ℕ} (hs : d.inode source = some i)
include hs

theorem inode_rename_of_ne {m : N} (h₁ : m ≠ source) (h₂ : m ≠ target) :
    (d.rename source target).inode m = d.inode m := by
  simp [rename, hs, Function.update_of_ne h₁, Function.update_of_ne h₂]

theorem read_rename : (d.rename source target).read target = some (d.data i) := by
  simp [read, rename, hs]

end Rename

end Disk

end DnslessHomelab.InodeStore
