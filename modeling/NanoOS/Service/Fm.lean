/-
# The file manager

Files are slots of 128 KB of the RAM disk. `FM_NEW_FILE` gives the next slot a
name, and `FM_READ` looks the name up in the chain of its hash value and reads
from the slot of the first node that has it.

Key definitions: `doNewFile`, `doRead`, `fmThread`, `Chained`.
Key theorems: `Chained.doNewFile`, `Chained.doRead_doNewFile`.
-/
import NanoOS.Drivers.Hal

namespace NanoOS
namespace Fm

/-- `FM_NEW_FILE`. -/
def fmNewFile : ℤ := 1

/-- `FM_READ`. -/
def fmRead : ℤ := 2

/-- `NR_MAX_FILE`. -/
def nrMaxFile : ℕ := 8

/-- `NR_FILE_SIZE`. -/
def nrFileSize : ℕ := 131072

/-- `HASH_TABLE_SIZE`. -/
def hashTableSize : ℤ := 4

/-- The bytes of the RAM disk. -/
abbrev Disk := ℕ → BitVec 8

/-- A `FileNode`. -/
structure FileNode where
  name : ℤ
  pos : ℕ

/-- `file`, the chains of `ramdisk_hash_table` as indices of `file`, and
`empty`. -/
structure State where
  file : ℕ → FileNode
  table : ℕ → List ℕ
  empty : ℕ

/-- After `init_fm`. -/
def State.init : State := ⟨fun _ => ⟨0, 0⟩, fun _ => [], 0⟩

/-- `hash_file_name`. -/
def hashFileName (name : ℤ) : ℤ := name.tmod hashTableSize

/-- `do_new_file`; `none` if it indexes outside `file` or the hash table. -/
def doNewFile (name : ℤ) (s : State) : Option State :=
  let hash := hashFileName name
  if s.empty < nrMaxFile ∧ 0 ≤ hash then
    some {
      file := Function.update s.file s.empty ⟨name, s.empty * nrFileSize⟩
      table := Function.update s.table hash.toNat (s.table hash.toNat ++ [s.empty])
      empty := s.empty + 1 }
  else none

/-- `do_read`, the lookup; `none` if there is no such file. -/
def doRead (name : ℤ) (s : State) : Option FileNode :=
  let hash := hashFileName name
  if 0 ≤ hash then ((s.table hash.toNat).map s.file).find? (·.name = name) else none

/-- What `dev_read("ram", ...)` copies. -/
def devReadRam (disk : Disk) (offset : ℤ) (len : ℕ) : List (BitVec 8) :=
  (List.range len).map fun i => disk (u32 offset + i)

/-- What the file manager makes of a request. -/
structure Outcome where
  state : State
  data : List (BitVec 8)
  reply : MsgData

/-- One round of `ramdisk_thread`, with `receive` done; a panic, a failed
assertion or an index outside an array is `none`. -/
def fmThread (fm : ℤ) (disk : Disk) (x : MsgData) (s : State) : Option Outcome :=
  if x.type = fmNewFile then
    (doNewFile x.i0 s).map fun s => ⟨s, [], { x with type := 0, dest := x.src, src := fm }⟩
  else if x.type = fmRead then
    (doRead x.i0 s).map fun n =>
      ⟨s, devReadRam disk (n.pos + x.offset) (u32 x.len), { x with type := x.len, dest := x.src, src := fm }⟩
  else none

/-- Where the file is, or will be once `FM_NEW_FILE` has made it. -/
def filePos (name : ℤ) (s : State) : ℕ := ((doRead name s).map FileNode.pos).getD (s.empty * nrFileSize)

/-! ### Lookups after a new file -/

variable {s s' : State} {name : ℤ}

/-- The chains lead to slots that are in use, and slots are where they
should be. -/
structure Chained (s : State) : Prop where
  bound : s.empty ≤ 8
  slot : ∀ h, ∀ k ∈ s.table h, k < s.empty
  pos : ∀ k < s.empty, (s.file k).pos = k * nrFileSize

theorem chained_init : Chained State.init :=
  ⟨Nat.zero_le _, fun _ _ hk => absurd hk List.not_mem_nil, fun k hk => absurd hk (Nat.not_lt_zero k)⟩

theorem Chained.doNewFile (hs : Chained s) (h : doNewFile name s = some s') : Chained s' := by
  unfold Fm.doNewFile at h
  dsimp only at h
  split at h
  · rename_i hok
    cases h
    refine ⟨hok.1, fun j k hk => ?_, fun k hk => ?_⟩
    · dsimp only at hk ⊢
      by_cases hj : j = (hashFileName name).toNat
      · rw [hj, Function.update_self, List.mem_append, List.mem_singleton] at hk
        rcases hk with hk | hk
        · exact Nat.lt_succ_of_lt (hs.slot _ k hk)
        · exact hk ▸ Nat.lt_succ_self _
      · rw [Function.update_of_ne hj] at hk
        exact Nat.lt_succ_of_lt (hs.slot j k hk)
    · dsimp only at hk ⊢
      by_cases hlast : k = s.empty
      · rw [hlast, Function.update_self]
      · rw [Function.update_of_ne hlast]
        exact hs.pos k (by omega)
  · cases h

theorem Chained.doRead_pos (hs : Chained s) {n : FileNode} (h : doRead name s = some n) :
    n.pos < 8 * nrFileSize := by
  unfold doRead at h
  dsimp only at h
  split at h
  · obtain ⟨k, hk, rfl⟩ := List.mem_map.mp (List.mem_of_find?_eq_some h)
    have hlt := hs.slot _ k hk
    have hbound := hs.bound
    rw [hs.pos k hlt]
    unfold nrFileSize
    omega
  · cases h

/-- A file keeps its slot when its name is given to another one as well; a new
name gets the new slot. -/
theorem Chained.doRead_doNewFile (hs : Chained s) (h : Fm.doNewFile name s = some s') :
    ∃ n, doRead name s' = some n ∧ n.pos = filePos name s := by
  unfold Fm.doNewFile at h
  dsimp only at h
  split at h
  · rename_i hok
    cases h
    have hkeep : (s.table (hashFileName name).toNat).map
        (Function.update s.file s.empty ⟨name, s.empty * nrFileSize⟩) =
        (s.table (hashFileName name).toNat).map s.file := by
      apply List.map_congr_left
      intro k hk
      exact Function.update_of_ne (Nat.ne_of_lt (hs.slot _ k hk)) ..
    unfold filePos doRead
    simp only [if_pos hok.2, Function.update_self, List.map_append, List.find?_append, hkeep, List.map_cons,
      List.map_nil]
    cases hfind : ((s.table (hashFileName name).toNat).map s.file).find? (·.name = name) with
    | some n => exact ⟨n, rfl, rfl⟩
    | none => exact ⟨⟨name, s.empty * nrFileSize⟩, by simp, rfl⟩
  · cases h

end Fm
end NanoOS
