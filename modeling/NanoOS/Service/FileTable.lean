/-
# The tables of the file manager

The chains of the hash table are circular lists through the `list` members of
the file nodes. `do_new_file` appends the next node to the chain of its name's
hash value, and `do_read` walks the chain. Neither looks at what it indexes
`file` and `ramdisk_hash_table` with: the remainder of a negative name may be
negative, and there are eight nodes.

Key definitions: `FileTable`, `FileTable.doNewFile`, `FileTable.doRead`,
`FileTable.Refines`, `Created`.
Key theorems: `FileTable.Refines.doNewFile`, `FileTable.Refines.doRead`,
`Created.doRead`, `fm_indices_inside`.
-/
import Mathlib.Data.List.Find
import Mathlib.Data.List.GetD
import Mathlib.Data.List.Perm.Subperm
import NanoOS.Adt.List
import NanoOS.Lib.Trans
import NanoOS.Service.Fm

namespace NanoOS
namespace Fm

open Ringlist Trans

/-- A `ListHead`: `ramdisk_hash_table[h]`, or `file[k].list`. -/
inductive Ptr
  | bucket (h : ℕ)
  | node (k : ℕ)
  deriving DecidableEq

/-- `file`, without the links, the links, and `empty`. -/
structure FileTable where
  file : ℕ → FileNode
  links : Heap Ptr
  empty : ℕ

/-- How a call ends that does not return. `stray` is a walk along a chain that
does not come back to its bucket. -/
inductive Fault
  | outside
  | noFile (name : ℤ)
  | stray
  deriving DecidableEq

/-- An index expression: of `file`, or of `ramdisk_hash_table`. -/
inductive Index
  | file (k : ℕ)
  | bucket (h : ℤ)

/-- The index is inside the array. -/
def Index.Inside : Index → Prop
  | .file k => k < nrMaxFile
  | .bucket h => 0 ≤ h ∧ h < hashTableSize

instance : DecidablePred Index.Inside
  | .file _ => inferInstanceAs (Decidable (_ < _))
  | .bucket _ => inferInstanceAs (Decidable (_ ∧ _))

/-- The calls. -/
inductive FileCall
  /-- `do_new_file` -/
  | newFile (name : ℤ)
  /-- `do_read`, up to `dev_read` -/
  | read (name : ℤ)

/-- The name a call is given. -/
def FileCall.name : FileCall → ℤ
  | .newFile name => name
  | .read name => name

namespace FileTable

/-- After `init_fm`. -/
def initFm : FileTable where
  file := fun _ => ⟨0, 0⟩
  links := (List.range 4).foldl (fun m h => listInit (.bucket h) m) fun _ => ⟨none, none⟩
  empty := 0

/-- What a call indexes the arrays with. -/
def indices (t : FileTable) : FileCall → List Index
  | .newFile name => [.file t.empty, .bucket (hashFileName name)]
  | .read name => [.bucket (hashFileName name)]

/-- All of it is inside the arrays. -/
def Inside (t : FileTable) (c : FileCall) : Prop := ∀ i ∈ t.indices c, i.Inside

instance (t : FileTable) (c : FileCall) : Decidable (t.Inside c) :=
  inferInstanceAs (Decidable (∀ i ∈ t.indices c, i.Inside))

/-- `do_new_file`. -/
def doNewFile (name : ℤ) (t : FileTable) : Except Fault FileTable :=
  if t.Inside (.newFile name) then
    .ok {
      file := Function.update t.file t.empty ⟨name, t.empty * nrFileSize⟩
      links := listAddBefore (.bucket (hashFileName name).toNat) (.node t.empty) t.links
      empty := t.empty + 1 }
  else .error .outside

/-- `list_entry(p, FileNode, list)->name == name`. The loop never asks it of a
bucket. -/
def hasName (t : FileTable) (name : ℤ) : Ptr → Bool
  | .bucket _ => false
  | .node k => (t.file k).name = name

/-- `do_read`, up to `dev_read`: the node. -/
def doRead (name : ℤ) (t : FileTable) : Except Fault FileNode :=
  if t.Inside (.read name) then
    match listForeach (.bucket (hashFileName name).toNat) (t.hasName name) t.links (nrMaxFile + 1) with
    | none => .error .stray
    | some (.bucket _) => .error (.noFile name)
    | some (.node k) => .ok (t.file k)
  else .error .outside

/-- A call; the table is as before after `do_read`. -/
def step (t : FileTable) : FileCall → Option FileTable
  | .newFile name => (t.doNewFile name).toOption
  | .read name => (t.doRead name).toOption.map fun _ => t

end FileTable

/-! ### The chains as lists of indices -/

/-- A bucket of the hash table. -/
def IsBucket (p : Ptr) : Prop := ∃ h < 4, p = .bucket h

/-- The nodes of a chain. -/
def nodesOf (s : State) : Ptr → List Ptr
  | .bucket h => (s.table h).map .node
  | .node _ => []

/-- The links are those of the chains, and the rest is the same. -/
structure FileTable.Refines (t : FileTable) (s : State) : Prop where
  file : t.file = s.file
  empty : t.empty = s.empty
  rings : Rings t.links IsBucket (nodesOf s)

theorem hashFileName_lt (name : ℤ) : hashFileName name < hashTableSize := Int.tmod_lt_of_pos _ (by decide)

theorem hashFileName_nonneg_iff (name : ℤ) : 0 ≤ hashFileName name ↔ 0 ≤ name ∨ 4 ∣ name := by
  unfold hashFileName hashTableSize
  rcases Int.le_total 0 name with hpos | hneg
  · rw [Int.tmod_eq_emod_of_nonneg hpos]
    omega
  · have hback : name.tmod 4 = -((-name).tmod 4) := by rw [Int.neg_tmod, Int.neg_neg]
    rw [hback, Int.tmod_eq_emod_of_nonneg (by omega)]
    omega

theorem inside_newFile {t : FileTable} {name : ℤ} :
    t.Inside (.newFile name) ↔ t.empty < nrMaxFile ∧ 0 ≤ hashFileName name := by
  have hlt := hashFileName_lt name
  unfold FileTable.Inside FileTable.indices
  simp only [List.mem_cons, List.not_mem_nil, or_false, forall_eq_or_imp, forall_eq, Index.Inside]
  omega

theorem inside_read {t : FileTable} {name : ℤ} : t.Inside (.read name) ↔ 0 ≤ hashFileName name := by
  have hlt := hashFileName_lt name
  unfold FileTable.Inside FileTable.indices
  simp only [List.mem_cons, List.not_mem_nil, or_false, forall_eq, Index.Inside]
  omega

namespace FileTable.Refines

variable {t t' : FileTable} {s s' : State} {name : ℤ}

theorem init : Refines initFm State.init := by
  have hself : ∀ h < 4, initFm.links (.bucket h) = ⟨some (.bucket h), some (.bucket h)⟩ := by
    intro h hh
    rcases (by omega : h = 0 ∨ h = 1 ∨ h = 2 ∨ h = 3) with rfl | rfl | rfl | rfl
    · decide
    · decide
    · decide
    · decide
  refine ⟨rfl, rfl, ?_, ?_⟩
  · rintro p ⟨h, hh, rfl⟩
    have hlink := hself h hh
    refine ⟨?_, List.nodup_singleton _⟩
    show List.IsChain (Linked initFm.links) [Ptr.bucket h, Ptr.bucket h]
    exact List.isChain_cons_cons.mpr ⟨⟨by rw [hlink], by rw [hlink]⟩, .singleton _⟩
  · rintro p p' ⟨h, hh, rfl⟩ ⟨h', hh', rfl⟩ hne q hq hq'
    have hin : q ∈ [Ptr.bucket h] := hq
    have hin' : q ∈ [Ptr.bucket h'] := hq'
    exact hne ((List.mem_singleton.mp hin).symm.trans (List.mem_singleton.mp hin'))

theorem not_inRings (hs : Chained s) : ¬ InRings IsBucket (nodesOf s) (.node s.empty) := by
  rintro ⟨p, ⟨h, hh, rfl⟩, hmem⟩
  rw [List.mem_cons] at hmem
  rcases hmem with heq | hmem
  · cases heq
  · obtain ⟨k, hk, heq⟩ := List.mem_map.mp (show Ptr.node s.empty ∈ (s.table h).map Ptr.node from hmem)
    cases heq
    exact Nat.lt_irrefl _ (hs.slot h _ hk)

/-- **`do_new_file`** appends to one chain. -/
theorem doNewFile (hr : Refines t s) (hs : Chained s) (hin : t.Inside (.newFile name)) :
    ∃ t' s', t.doNewFile name = .ok t' ∧ Fm.doNewFile name s = some s' ∧ Refines t' s' := by
  have hin' := inside_newFile.mp hin
  have hlt := hashFileName_lt name
  have hbucket : IsBucket (.bucket (hashFileName name).toNat) := by
    refine ⟨_, ?_, rfl⟩
    unfold hashTableSize at hlt
    omega
  have hrings := Rings.listAddBefore hr.rings hbucket (not_inRings hs)
  rw [hr.empty] at hin'
  refine ⟨_, _, if_pos hin, if_pos hin', ?_, ?_, ?_⟩
  · dsimp only
    rw [hr.file, hr.empty]
  · dsimp only
    rw [hr.empty]
  · dsimp only
    rw [hr.empty]
    apply hrings.congr_seq
    intro p hp
    obtain ⟨h, hh, rfl⟩ := hp
    by_cases heq : h = (hashFileName name).toNat
    · rw [heq, Function.update_self]
      unfold nodesOf
      dsimp only
      rw [Function.update_self, List.map_append]
      rfl
    · rw [Function.update_of_ne (fun hp => heq (by cases hp; rfl))]
      unfold nodesOf
      dsimp only
      rw [Function.update_of_ne heq]

theorem length_chain (hr : Refines t s) (hs : Chained s) {h : ℕ} (hh : h < 4) :
    (nodesOf s (.bucket h)).length ≤ nrMaxFile := by
  have hring := hr.rings.ring (.bucket h) ⟨h, hh, rfl⟩
  have hnodup : ((s.table h).map Ptr.node).Nodup := (List.nodup_cons.mp hring.nodup).2
  have hsub : s.table h ⊆ List.range nrMaxFile := fun k hk =>
    List.mem_range.mpr (Nat.lt_of_lt_of_le (hs.slot h k hk) hs.bound)
  calc (nodesOf s (.bucket h)).length = (s.table h).length := List.length_map ..
    _ ≤ (List.range nrMaxFile).length := (List.subperm_of_subset hnodup.of_map hsub).length_le
    _ = nrMaxFile := List.length_range

/-- **`do_read`** finds the node that the chain, as a list, has for the name. -/
theorem doRead (hr : Refines t s) (hs : Chained s) (hin : t.Inside (.read name)) :
    t.doRead name = match Fm.doRead name s with
      | some n => .ok n
      | none => .error (.noFile name) := by
  have hpos := inside_read.mp hin
  have hlt := hashFileName_lt name
  have hh : (hashFileName name).toNat < 4 := by
    unfold hashTableSize at hlt
    omega
  have hloop := Ring.listForeach (hr.rings.ring (.bucket (hashFileName name).toNat) ⟨_, hh, rfl⟩) (t.hasName name)
    (Nat.lt_succ_of_le (hr.length_chain hs hh))
  have hfind : (nodesOf s (.bucket (hashFileName name).toNat)).find? (t.hasName name) =
      ((s.table (hashFileName name).toNat).find? fun k => decide ((s.file k).name = name)).map Ptr.node := by
    unfold nodesOf
    dsimp only
    rw [List.find?_map, ← hr.file]
    rfl
  unfold FileTable.doRead Fm.doRead
  dsimp only
  rw [if_pos hin, if_pos hpos, hloop, hfind, List.find?_map]
  show _ =
    match ((s.table (hashFileName name).toNat).find? fun k => decide ((s.file k).name = name)).map s.file with
    | some n => Except.ok n
    | none => Except.error (Fault.noFile name)
  cases (s.table (hashFileName name).toNat).find? fun k => decide ((s.file k).name = name) with
  | none => rfl
  | some k =>
    rw [hr.file.symm]
    rfl

end FileTable.Refines

/-! ### The files that were created -/

/-- The nodes, by the names of the files in the order in which they were
created: a chain has those of its hash value, in this order. -/
structure Created (names : List ℤ) (s : State) : Prop where
  empty : s.empty = names.length
  bound : names.length ≤ nrMaxFile
  file : ∀ k < names.length, s.file k = ⟨names.getD k 0, k * nrFileSize⟩
  table : ∀ h, s.table h = (List.range names.length).filter fun k => (hashFileName (names.getD k 0)).toNat = h
  inside : ∀ name ∈ names, 0 ≤ hashFileName name

namespace Created

variable {names : List ℤ} {s s' : State} {name : ℤ}

theorem init : Created [] State.init :=
  ⟨rfl, Nat.zero_le _, fun k hk => absurd hk (Nat.not_lt_zero k), fun _ => rfl, fun _ h => absurd h List.not_mem_nil⟩

theorem chained (hs : Created names s) : Chained s := by
  refine ⟨hs.empty.trans_le hs.bound, fun h k hk => ?_, fun k hk => ?_⟩
  · rw [hs.table h] at hk
    rw [hs.empty]
    exact List.mem_range.mp (List.mem_of_mem_filter hk)
  · rw [hs.empty] at hk
    rw [hs.file k hk]

theorem getD_append_left {k : ℕ} (hk : k < names.length) : (names ++ [name]).getD k 0 = names.getD k 0 := by
  rw [List.getD_eq_getElem?_getD, List.getElem?_append_left hk, ← List.getD_eq_getElem?_getD]

theorem getD_append_length : (names ++ [name]).getD names.length 0 = name := by
  rw [List.getD_eq_getElem?_getD, List.getElem?_append_right (Nat.le_refl _), Nat.sub_self]
  rfl

/-- `do_new_file` creates one more. -/
theorem doNewFile (hs : Created names s) (h : Fm.doNewFile name s = some s') : Created (names ++ [name]) s' := by
  unfold Fm.doNewFile at h
  dsimp only at h
  split at h
  · rename_i hok
    cases h
    rw [hs.empty] at hok
    have hlen : (names ++ [name]).length = names.length + 1 := List.length_append
    refine ⟨?_, ?_, fun k hk => ?_, fun h => ?_, fun n hn => ?_⟩
    · dsimp only
      rw [hlen, hs.empty]
    · rw [hlen]
      exact hok.1
    · dsimp only
      by_cases hlast : k = names.length
      · rw [hs.empty, hlast, Function.update_self, getD_append_length]
      · rw [hs.empty, Function.update_of_ne hlast, hs.file k (by omega), getD_append_left (by omega)]
    · have hold : (List.range names.length).filter (fun k => (hashFileName ((names ++ [name]).getD k 0)).toNat = h) =
          s.table h := by
        rw [hs.table h]
        apply List.filter_congr
        intro k hk
        rw [getD_append_left (List.mem_range.mp hk)]
      dsimp only
      rw [hlen, List.range_succ, List.filter_append, hold, hs.empty]
      by_cases heq : h = (hashFileName name).toNat
      · rw [heq, Function.update_self, List.filter_singleton, getD_append_length]
        simp
      · rw [Function.update_of_ne heq, List.filter_singleton, getD_append_length, decide_eq_false (Ne.symm heq)]
        exact (List.append_nil _).symm
    · rcases List.mem_append.mp hn with hn | hn
      · exact hs.inside n hn
      · exact List.mem_singleton.mp hn ▸ hok.2
  · cases h

/-- **The right file**: the first one that was created with the name. -/
theorem doRead (hs : Created names s) (hpos : 0 ≤ hashFileName name) :
    Fm.doRead name s = if name ∈ names then some ⟨name, names.idxOf name * nrFileSize⟩ else none := by
  unfold Fm.doRead
  dsimp only
  rw [if_pos hpos, List.find?_map, hs.table, List.find?_filter]
  have hwalk : (List.range names.length).find? (fun k =>
        decide (decide ((hashFileName (names.getD k 0)).toNat = (hashFileName name).toNat) = true ∧
          ((fun n : FileNode => decide (n.name = name)) ∘ s.file) k = true)) =
      (List.range names.length).find? fun k => decide (names.getD k 0 = name) := by
    refine List.find?_congr fun k hk => ?_
    rw [Function.comp_apply, hs.file k (List.mem_range.mp hk)]
    refine decide_eq_decide.mpr ⟨fun h => of_decide_eq_true h.2, fun h => ⟨?_, decide_eq_true h⟩⟩
    rw [h]
    exact decide_eq_true rfl
  rw [hwalk]
  by_cases hmem : name ∈ names
  · have hidx : names.idxOf name < names.length := List.idxOf_lt_length_of_mem hmem
    have hname : names.getD (names.idxOf name) 0 = name := by
      rw [List.getD_eq_getElem _ _ hidx, List.getElem_idxOf hidx]
    have hfirst : (List.range names.length).find? (fun k => decide (names.getD k 0 = name)) =
        some (names.idxOf name) := by
      refine List.find?_range_eq_some.mpr ⟨decide_eq_true hname, List.mem_range.mpr hidx, fun j hj => ?_⟩
      rw [List.getD_eq_getElem _ _ (Nat.lt_trans hj hidx)]
      simpa using List.not_of_lt_findIdx hj
    rw [hfirst, if_pos hmem]
    show some (s.file (names.idxOf name)) = _
    rw [hs.file _ hidx, hname]
  · have hnone : (List.range names.length).find? (fun k => decide (names.getD k 0 = name)) = none := by
      refine List.find?_range_eq_none.mpr fun k hk => ?_
      rw [List.getD_eq_getElem _ _ hk]
      have hother : names[k] ≠ name := fun heq => hmem (heq ▸ List.getElem_mem hk)
      simpa using hother
    rw [hnone, if_neg hmem]
    rfl

end Created

/-! ### Runs -/

/-- The names of the files created, in order. -/
def record (_ : FileTable) (c : FileCall) (names : List ℤ) : List ℤ :=
  match c with
  | .newFile name => names ++ [name]
  | .read _ => names

/-- `t` is the table after some sequence of requests that were all carried out,
the creations among them being `names`. -/
def After (t : FileTable) (names : List ℤ) : Prop :=
  Reach (withHistory FileTable.step record) (fun _ _ => True) (FileTable.initFm, []) (t, names)

theorem After.exists_of_exec {P : FileTable × List ℤ → Prop} [DecidablePred P] (cs : List FileCall)
    (h : (exec (withHistory FileTable.step record) (fun _ _ => True) (FileTable.initFm, []) cs).any
      (fun p => decide (P p)) = true) : ∃ p : FileTable × List ℤ, After p.1 p.2 ∧ P p :=
  Reach.exists_of_exec cs h

/-- The chains have the files in the order in which they were created. -/
theorem After.created {t : FileTable} {names : List ℤ} (h : After t names) : ∃ s, t.Refines s ∧ Created names s := by
  refine Reach.invariant (I := fun p : FileTable × List ℤ => ∃ s, p.1.Refines s ∧ Created p.2 s) h
    ⟨State.init, .init, .init⟩ ?_
  rintro ⟨t, names⟩ c ⟨t', names'⟩ ⟨s, hr, hs⟩ _ hstep
  obtain ⟨hstep, hnames⟩ := withHistory_eq_some.mp hstep
  dsimp only at hr hs hstep hnames ⊢
  cases c with
  | newFile name =>
    have hin : t.Inside (.newFile name) := by
      by_contra hout
      unfold FileTable.step FileTable.doNewFile at hstep
      dsimp only at hstep
      rw [if_neg hout] at hstep
      cases hstep
    obtain ⟨u, s', hu, hs', hr'⟩ := hr.doNewFile hs.chained hin
    unfold FileTable.step at hstep
    dsimp only at hstep
    rw [hu] at hstep
    cases hstep
    exact ⟨s', hr', hnames ▸ hs.doNewFile hs'⟩
  | read name =>
    obtain ⟨_, _, hsame⟩ := Option.map_eq_some_iff.mp hstep
    exact ⟨s, hsame ▸ hr, hnames ▸ hs⟩

theorem After.inside {t : FileTable} {names : List ℤ} (h : After t names) {name : ℤ} (hname : name ∈ names) :
    0 ≤ hashFileName name := by
  obtain ⟨_, -, hs⟩ := h.created
  exact hs.inside name hname

theorem After.doRead {t : FileTable} {names : List ℤ} (h : After t names) {name : ℤ} (hpos : 0 ≤ hashFileName name) :
    t.doRead name = if name ∈ names then .ok ⟨name, names.idxOf name * nrFileSize⟩ else .error (.noFile name) := by
  obtain ⟨s, hr, hs⟩ := h.created
  rw [hr.doRead hs.chained (inside_read.mpr hpos), hs.doRead hpos]
  by_cases hname : name ∈ names
  · rw [if_pos hname, if_pos hname]
  · rw [if_neg hname, if_neg hname]

/-- Eight files with names that are not negative can be created. -/
theorem exists_after {names : List ℤ} (hlen : names.length ≤ nrMaxFile) (hnames : ∀ name ∈ names, 0 ≤ name) :
    ∃ t, After t names := by
  induction names using List.reverseRecOn with
  | nil => exact ⟨_, .init⟩
  | append_singleton names name ih =>
    rw [List.length_append, List.length_singleton] at hlen
    obtain ⟨t, h⟩ := ih (by omega) fun n hn => hnames n (List.mem_append_left _ hn)
    obtain ⟨s, hr, hs⟩ := h.created
    have hname := hnames name (List.mem_append_right _ (List.mem_singleton_self name))
    have hin : t.Inside (.newFile name) := by
      rw [inside_newFile, hashFileName_nonneg_iff, hr.empty, hs.empty]
      exact ⟨hlen, .inl hname⟩
    obtain ⟨t', s', ht', -, -⟩ := hr.doNewFile hs.chained hin
    refine ⟨t', Reach.step h trivial (a := .newFile name) (withHistory_eq_some.mpr ⟨?_, rfl⟩)⟩
    show (t.doNewFile name).toOption = some t'
    rw [ht']
    rfl

/-- **The file manager stays inside its tables** exactly as long as fewer than
eight files have been created before a creation, and no name is negative
without being divisible by four: then C's remainder is negative. The nodes the
chains lead to are always in `file`. -/
theorem fm_indices_inside {t : FileTable} {names : List ℤ} (h : After t names) :
    (∀ c, t.Inside c ↔ (0 ≤ c.name ∨ 4 ∣ c.name) ∧ ∀ name, c = .newFile name → names.length < nrMaxFile) ∧
      ∃ nodes : Ptr → List Ptr, Rings t.links IsBucket nodes ∧
        ∀ b, IsBucket b → ∀ p ∈ nodes b, ∃ k < nrMaxFile, p = .node k := by
  obtain ⟨s, hr, hs⟩ := h.created
  refine ⟨fun c => ?_, nodesOf s, hr.rings, ?_⟩
  · cases c with
    | newFile name =>
      rw [inside_newFile, hashFileName_nonneg_iff, hr.empty, hs.empty]
      exact ⟨fun h => ⟨h.2, fun _ _ => h.1⟩, fun h => ⟨h.2 name rfl, h.1⟩⟩
    | read name =>
      rw [inside_read, hashFileName_nonneg_iff]
      exact ⟨fun h => ⟨h, nofun⟩, And.left⟩
  · rintro b ⟨i, hi, rfl⟩ p hp
    obtain ⟨k, hk, rfl⟩ := List.mem_map.mp (show p ∈ (s.table i).map Ptr.node from hp)
    exact ⟨k, Nat.lt_of_lt_of_le (hs.chained.slot i k hk) hs.chained.bound, rfl⟩

theorem fm_indices_inside_two :
    ∃ t, After t [7, 11] ∧ t.Inside (.newFile 15) ∧ t.Inside (.read (-8)) ∧ ¬ t.Inside (.read (-7)) := by
  obtain ⟨⟨t, names⟩, h, rfl⟩ : ∃ p : FileTable × List ℤ, After p.1 p.2 ∧ p.2 = [7, 11] :=
    After.exists_of_exec [.newFile 7, .newFile 11] (by decide)
  have hin := (fm_indices_inside h).1
  have hroom : [(7 : ℤ), 11].length < nrMaxFile := by decide
  exact ⟨t, h, (hin (.newFile 15)).mpr ⟨by decide, fun _ _ => hroom⟩, (hin (.read (-8))).mpr ⟨by decide, nofun⟩,
    fun hneg => absurd ((hin (.read (-7))).mp hneg).1 (by decide)⟩

/-- The file `-1` is looked for in `ramdisk_hash_table[-1]`, and the ninth file
is made of `file[8]`. -/
theorem fm_indices_outside :
    (¬ ∀ t names, After t names → ∀ c, t.Inside c) ∧
      ∃ p : FileTable × List ℤ, After p.1 p.2 ∧ ¬ p.1.Inside (.newFile 0) := by
  refine ⟨fun h => absurd (h _ _ .init (.read (-1))) (by decide), ?_⟩
  exact After.exists_of_exec (List.replicate 8 (.newFile 0)) (by decide)

end Fm
end NanoOS
