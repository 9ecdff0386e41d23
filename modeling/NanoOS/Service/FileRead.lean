/-
# Reading files

`do_read` asks the `ram` driver for `len` bytes from `pos + offset` on, and the
driver copies them. `offset` and `len` get to the driver as they are: nobody
compares them with the size of a slot, so a read that fits the slot gives the
bytes of the file, and one that does not gives what lies behind it.

Key definitions: `readFile`, `chain`, `Copied`, `InSlot`, `Isolated`.
Key theorems: `Store.memcpy_copied`, `readFile_created`, `file_found`,
`memcpy_agree`, `files_isolated`.
-/
import NanoOS.Drivers.Plain
import NanoOS.Service.FileTable

namespace NanoOS

/-- The conversion of an integer to `int`. -/
def i32 (x : ℤ) : ℤ := Int.bmod x 4294967296

theorem u32_i32_add (x y : ℤ) : u32 (i32 x + y) = u32 (x + y) := by
  unfold u32 i32
  have hmod : x.bmod 4294967296 % 4294967296 = x % 4294967296 := Int.bmod_emod
  rw [Int.add_emod, hmod, ← Int.add_emod]

/-! ### `memcpy` -/

/-- `s'` is `s` with the `n` bytes at `src` copied to `dest`. -/
structure Copied (dest src : ℤ) (n : ℕ) (s s' : Store) : Prop where
  data : ∀ i < n, s'.mem (u32 (dest + i)) = s.mem (u32 (src + i))
  frame : ∀ a, (∀ i < n, a ≠ u32 (dest + i)) → s'.mem a = s.mem a

/-- Two ranges of `n` bytes have no byte in common. -/
def Apart (dest src : ℤ) (n : ℕ) : Prop := ∀ i < n, ∀ j < n, u32 (dest + i) ≠ u32 (src + j)

namespace Store

theorem memcpy_succ (dest src : ℤ) (n : ℕ) (s : Store) :
    (s.memcpy dest src (n + 1)).mem =
      Function.update (s.memcpy dest src n).mem (u32 (dest + n)) ((s.memcpy dest src n).mem (u32 (src + n))) := by
  unfold memcpy
  simp only [bind_pure_comp, List.map_eq_map, List.foldl_map, List.range_succ, List.foldl_append, List.foldl_cons,
    List.foldl_nil]

theorem memcpy_frame (dest src : ℤ) (s : Store) {n a : ℕ} (ha : ∀ i < n, a ≠ u32 (dest + i)) :
    (s.memcpy dest src n).mem a = s.mem a := by
  induction n with
  | zero => rfl
  | succ n ih =>
    rw [memcpy_succ, Function.update_of_ne (ha n (Nat.lt_succ_self n))]
    exact ih fun i hi => ha i (Nat.lt_succ_of_lt hi)

theorem u32_add_inj (p : ℤ) {i j : ℕ} (hi : i < 4294967296) (hj : j < 4294967296) (h : u32 (p + i) = u32 (p + j)) :
    i = j := by
  unfold u32 at h
  omega

theorem memcpy_congr {dest src src' : ℤ} {n : ℕ} (s : Store) (h : ∀ i < n, u32 (src + i) = u32 (src' + i)) :
    s.memcpy dest src n = s.memcpy dest src' n := by
  have hmem : (s.memcpy dest src n).mem = (s.memcpy dest src' n).mem := by
    induction n with
    | zero => rfl
    | succ n ih => rw [memcpy_succ, memcpy_succ, ih fun i hi => h i (Nat.lt_succ_of_lt hi), h n (Nat.lt_succ_self n)]
  exact congrArg (fun mem => Store.mk mem s.next) hmem

/-- What `memcpy` copies, when the ranges are apart. -/
theorem memcpy_copied {dest src : ℤ} {n : ℕ} (s : Store) (hn : n ≤ 4294967296) (h : Apart dest src n) :
    Copied dest src n s (s.memcpy dest src n) := by
  refine ⟨?_, fun a ha => memcpy_frame dest src s ha⟩
  induction n with
  | zero => exact fun i hi => absurd hi (Nat.not_lt_zero i)
  | succ n ih =>
    intro i hi
    rw [memcpy_succ]
    by_cases hlast : i = n
    · rw [hlast, Function.update_self]
      exact memcpy_frame dest src s fun j hj => (h j (by omega) n (by omega)).symm
    · have hne : u32 (dest + i) ≠ u32 (dest + n) := fun heq => hlast (u32_add_inj dest (by omega) (by omega) heq)
      rw [Function.update_of_ne hne]
      exact ih (by omega) (fun i hi j hj => h i (by omega) j (by omega)) i (by omega)

/-- Copying reads only the source: memories that agree on it, apart from where
the copy goes, agree on the copy. -/
theorem memcpy_agree {dest src : ℤ} {n : ℕ} {s s' : Store}
    (h : ∀ i < n, s.mem (u32 (src + i)) = s'.mem (u32 (src + i))) :
    ∀ i < n, (s.memcpy dest src n).mem (u32 (dest + i)) = (s'.memcpy dest src n).mem (u32 (dest + i)) := by
  -- the copy may run into the source; what is read there then was copied before
  have hboth : ∀ k ≤ n, ∀ a, (s.mem a = s'.mem a ∨ ∃ i < k, a = u32 (dest + i)) →
      (s.memcpy dest src k).mem a = (s'.memcpy dest src k).mem a := by
    intro k
    induction k with
    | zero =>
      rintro - a (ha | ⟨i, hi, -⟩)
      · exact ha
      · exact absurd hi (Nat.not_lt_zero i)
    | succ k ih =>
      intro hk a ha
      have hread := ih (by omega) (u32 (src + k)) (.inl (h k (by omega)))
      rw [memcpy_succ, memcpy_succ, hread]
      by_cases hlast : a = u32 (dest + k)
      · rw [hlast, Function.update_self, Function.update_self]
      · rw [Function.update_of_ne hlast, Function.update_of_ne hlast]
        refine ih (by omega) a (ha.imp_right ?_)
        rintro ⟨i, hi, rfl⟩
        exact ⟨i, by by_contra hge; exact hlast (by rw [show i = k by omega]), rfl⟩
  exact fun i hi => hboth n (Nat.le_refl n) _ (.inr ⟨i, hi, rfl⟩)

end Store

namespace Fm

open Ringlist

/-- How a read ends that does not return: in the lookup, or in the driver. -/
inductive ReadFault
  | lookup (f : Fault)
  | driver (f : Plain.Fault)
  deriving DecidableEq

/-- `do_read` in thread `me`, with the round of `ram_driver_thread` that answers
it: the memory afterwards. `disk` is the address of the RAM disk, and `ram`
its device. -/
def readFile (disk : ℤ) (ram : Dev) (me name buf offset len : ℤ) (t : FileTable) (s : Store) :
    Except ReadFault Store :=
  match t.doRead name with
  | .error f => .error (.lookup f)
  | .ok n =>
    match Plain.ramDriverThread disk ram.pid (devRwMsg me devRead me buf (i32 (n.pos + offset)) len ram) s with
    | .error f => .error (.driver f)
    | .ok (_, s) => .ok s

/-- The nodes of a chain, when files were created with these names. -/
def chain (names : List ℤ) : Ptr → List Ptr
  | .bucket h => ((List.range names.length).filter fun k => hashFileName (names.getD k 0) = h).map .node
  | .node _ => []

variable {disk : ℤ} {ram : Dev} {me : ℕ} {names : List ℤ} {t : FileTable} {s : Store} {name buf offset len : ℤ}

/-- Where file `name` begins. -/
def slotOf (disk : ℤ) (names : List ℤ) (name : ℤ) : ℤ := disk + names.idxOf name * nrFileSize

theorem ramDriverThread_read :
    Plain.ramDriverThread disk ram.pid (devRwMsg me devRead me buf offset len ram) s =
      .ok ((devRwMsg me devRead me buf offset len ram).answer ram.pid len, s.memcpy buf (offset + disk) (u32 len)) := by
  have hsrc : (devRwMsg me devRead me buf offset len ram).src ≠ msgHardIntr := by
    show (me : ℤ) ≠ -2
    omega
  unfold Plain.ramDriverThread Plain.guardedRound Plain.round Plain.copyOut
  rw [if_neg hsrc]
  rfl

/-- A file that was created is read from its slot on. -/
theorem readFile_created (h : After t names) (hname : name ∈ names) :
    readFile disk ram me name buf offset len t s = .ok (s.memcpy buf (slotOf disk names name + offset) (u32 len)) := by
  have hread := h.doRead (h.inside hname)
  rw [if_pos hname] at hread
  unfold readFile
  rw [hread]
  dsimp only
  rw [ramDriverThread_read]
  dsimp only
  refine congrArg Except.ok (Store.memcpy_congr s fun i _ => ?_)
  calc u32 (i32 (((names.idxOf name * nrFileSize : ℕ) : ℤ) + offset) + disk + i)
      = u32 (i32 (((names.idxOf name * nrFileSize : ℕ) : ℤ) + offset) + (disk + i)) := by rw [Int.add_assoc]
    _ = u32 (((names.idxOf name * nrFileSize : ℕ) : ℤ) + offset + (disk + i)) := u32_i32_add ..
    _ = u32 (slotOf disk names name + offset + i) := by
        unfold slotOf
        push_cast
        exact congrArg u32 (by omega)

variable (disk ram me names t s name buf offset len) in
/-- The read of a part of a slot goes right: it panics if there is no file with
the name, and else copies that part of the slot of the first one. -/
structure ReadsRight : Prop where
  panics : readFile disk ram me name buf offset len t s = .error (.lookup (.noFile name)) ↔ name ∉ names
  copies : name ∈ names → ∃ s', readFile disk ram me name buf offset len t s = .ok s' ∧
    s' = s.memcpy buf (slotOf disk names name + offset) len.toNat ∧
    (Apart buf (slotOf disk names name + offset) len.toNat →
      Copied buf (slotOf disk names name + offset) len.toNat s s')

theorem readFile_outside (hneg : ¬ 0 ≤ hashFileName name) :
    readFile disk ram me name buf offset len t s = .error (.lookup .outside) := by
  unfold readFile FileTable.doRead
  rw [if_neg fun hin => hneg (inside_read.mp hin)]

theorem readsRight (h : After t names) (hpos : 0 ≤ hashFileName name) (hlen : 0 ≤ len) (hle : len ≤ nrFileSize) :
    ReadsRight disk ram me names t s name buf offset len := by
  have hu : u32 len = len.toNat := by
    unfold u32
    unfold nrFileSize at hle
    omega
  have hcopy : ∀ hname : name ∈ names, readFile disk ram me name buf offset len t s =
      .ok (s.memcpy buf (slotOf disk names name + offset) len.toNat) :=
    fun hname => hu ▸ readFile_created h hname
  refine ⟨⟨fun hpanic hname => ?_, fun hname => ?_⟩, fun hname => ⟨_, hcopy hname, rfl, fun hapart => ?_⟩⟩
  · rw [hcopy hname] at hpanic
    cases hpanic
  · have hread := h.doRead hpos
    rw [if_neg hname] at hread
    unfold readFile
    rw [hread]
  · refine Store.memcpy_copied s ?_ hapart
    unfold nrFileSize at hle
    omega

/-- **The right file is found.** The chains have every file that was created
once, in the bucket of its name and in the order of creation, and a read of a
part of a slot goes right; unless the name is negative and not divisible by
four, when the lookup starts outside the hash table. -/
theorem file_found (h : After t names) :
    Rings t.links IsBucket (chain names) ∧
      (∀ k < names.length, t.file k = ⟨names.getD k 0, k * nrFileSize⟩) ∧
      ∀ name buf offset len : ℤ, 0 ≤ offset → 0 ≤ len → offset + len ≤ nrFileSize →
        (ReadsRight disk ram me names t s name buf offset len ↔ 0 ≤ name ∨ 4 ∣ name) := by
  obtain ⟨u, hr, hs⟩ := h.created
  refine ⟨?_, fun k hk => hr.file ▸ hs.file k hk, fun name buf offset len hoff hlen hslot => ?_⟩
  · apply hr.rings.congr_seq
    rintro b ⟨i, hi, rfl⟩
    show (u.table i).map Ptr.node = _
    rw [hs.table i]
    refine congrArg (List.map Ptr.node) (List.filter_congr fun k hk => decide_eq_decide.mpr ?_)
    have hk' := List.mem_range.mp hk
    have hpos := hs.inside (names.getD k 0) (List.getD_eq_getElem names 0 hk' ▸ List.getElem_mem hk')
    omega
  · rw [← hashFileName_nonneg_iff]
    constructor
    · intro hright
      by_contra hneg
      have hpanic := hright.panics
      rw [readFile_outside hneg] at hpanic
      exact hneg (h.inside (by_contra fun hname => by cases hpanic.mpr hname))
    · exact fun hpos => readsRight h hpos hlen (by omega)

theorem file_found_two : ∃ t, After t [3, 7] ∧ t.file 1 = ⟨7, 131072⟩ ∧
    ReadsRight 1048576 ⟨"ram", 4, 0⟩ 5 [3, 7] t ⟨fun _ => 0, 0⟩ 7 8192 100 16 := by
  obtain ⟨t, h⟩ := @exists_after [3, 7] (by decide) (by decide)
  obtain ⟨-, hfile, hread⟩ := @file_found 1048576 ⟨"ram", 4, 0⟩ 5 [3, 7] t ⟨fun _ => 0, 0⟩ h
  exact ⟨t, h, hfile 1 (by decide), (hread 7 8192 100 16 (by decide) (by decide) (by decide)).mpr (.inl (by decide))⟩

/-- Nobody created the file `-1`, and looking for it does not panic. -/
theorem file_found_outside :
    ¬ ∀ t names, After t names → (∀ name ∈ names, 0 ≤ name) → ∀ (disk : ℤ) (ram : Dev) (me : ℕ) (s : Store)
      (name buf offset len : ℤ), 0 ≤ offset → 0 ≤ len → offset + len ≤ nrFileSize →
        ReadsRight disk ram me names t s name buf offset len := by
  intro h
  have hright := h _ _ .init (by decide) 1048576 ⟨"ram", 4, 0⟩ 5 ⟨fun _ => 0, 0⟩ (-1) 8192 0 16 (by decide)
    (by decide) (by decide)
  have hpanic := hright.panics.mpr List.not_mem_nil
  rw [readFile_outside (by decide)] at hpanic
  cases hpanic

/-! ### Isolation -/

/-- The addresses of the slot of a file. -/
def InSlot (disk : ℤ) (names : List ℤ) (name : ℤ) (a : ℕ) : Prop :=
  ∃ j < nrFileSize, a = u32 (slotOf disk names name + j)

variable (disk ram me names t name buf offset len) in
/-- What a read of the file returns depends on the slot of the file only. -/
def Isolated : Prop :=
  ∀ s s' r r', (∀ a, InSlot disk names name a → s.mem a = s'.mem a) →
    readFile disk ram me name buf offset len t s = .ok r → readFile disk ram me name buf offset len t s' = .ok r' →
    ∀ i < u32 len, r.mem (u32 (buf + i)) = r'.mem (u32 (buf + i))

/-- The part that is read, with `offset` and `len` as integers of 32 bits. -/
def Fits (offset len : ℤ) : Prop := i32 len = 0 ∨ 0 ≤ i32 offset ∧ 0 ≤ i32 len ∧ i32 offset + i32 len ≤ nrFileSize

instance (offset len : ℤ) : Decidable (Fits offset len) := inferInstanceAs (Decidable (_ ∨ _))

theorem fits_iff : Fits offset len ↔ u32 len = 0 ∨ u32 offset + u32 len ≤ nrFileSize := by
  unfold Fits i32 u32 nrFileSize
  simp only [Int.bmod_def]
  split <;> split <;> omega

theorem inSlot_iff :
    (∀ i < u32 len, InSlot disk names name (u32 (slotOf disk names name + offset + i))) ↔ Fits offset len := by
  rw [fits_iff]
  unfold InSlot
  generalize slotOf disk names name = p
  constructor
  · intro h
    by_contra hout
    have hfirst : u32 offset < nrFileSize := by
      obtain ⟨j, hj, heq⟩ := h 0 (by omega)
      unfold u32 nrFileSize at *
      omega
    -- the byte behind the slot
    obtain ⟨j, hj, heq⟩ := h (nrFileSize - u32 offset) (by omega)
    unfold u32 nrFileSize at *
    omega
  · rintro hfits i hi
    refine ⟨u32 offset + i, by omega, ?_⟩
    unfold u32
    omega

/-- **Files are isolated** from each other by reads that fit the slot, and by no
others: a read copies `len` bytes from `offset` on, wherever they are. -/
theorem files_isolated (h : After t names) (hname : name ∈ names) :
    (∀ s, readFile disk ram me name buf offset len t s =
        .ok (s.memcpy buf (slotOf disk names name + offset) (u32 len))) ∧
      ((∀ i < u32 len, InSlot disk names name (u32 (slotOf disk names name + offset + i))) ↔ Fits offset len) ∧
      (Fits offset len → Isolated disk ram me names t name buf offset len) := by
  refine ⟨fun s => readFile_created h hname, inSlot_iff, fun hfits s s' r r' hagree hr hr' => ?_⟩
  rw [readFile_created h hname] at hr hr'
  cases hr
  cases hr'
  exact Store.memcpy_agree fun i hi => hagree _ (inSlot_iff.mpr hfits i hi)

theorem files_isolated_two :
    ∃ t, After t [3, 7] ∧ Isolated 1048576 ⟨"ram", 4, 0⟩ (5 : ℕ) [3, 7] t 7 8192 131000 72 := by
  obtain ⟨t, h⟩ := @exists_after [3, 7] (by decide) (by decide)
  exact ⟨t, h, (files_isolated h (by decide)).2.2 (by decide)⟩

/-- The byte behind the first file is the first byte of the second one, and a
read of the first file gives it. -/
theorem file_leaks :
    ∃ t, After t [3, 7] ∧
      (¬ ∀ i < u32 1, InSlot 1048576 [3, 7] 3 (u32 (slotOf 1048576 [3, 7] 3 + 131072 + i))) ∧
      ¬ Isolated 1048576 ⟨"ram", 4, 0⟩ (5 : ℕ) [3, 7] t 3 8192 131072 1 := by
  obtain ⟨t, h⟩ := @exists_after [3, 7] (by decide) (by decide)
  have hname : (3 : ℤ) ∈ [(3 : ℤ), 7] := by decide
  refine ⟨t, h, fun hin => absurd (inSlot_iff.mp hin) (by decide), fun hiso => ?_⟩
  have hagree : ∀ a, InSlot 1048576 [3, 7] 3 a →
      (⟨fun _ => 0, 0⟩ : Store).mem a = (⟨Function.update (fun _ => 0) 1179648 1, 0⟩ : Store).mem a := by
    rintro a ⟨j, hj, rfl⟩
    have hslot : slotOf 1048576 [3, 7] 3 = 1048576 := by decide
    dsimp only
    rw [hslot, Function.update_of_ne]
    unfold u32
    unfold nrFileSize at hj
    omega
  exact absurd (hiso _ _ _ _ hagree (readFile_created h hname) (readFile_created h hname) 0 (by decide)) (by decide)

end Fm
end NanoOS
