/-
# The device registry

`hal.c` keeps the devices in a pool: an entry is in the list `free_dev` until
it is registered, and in `devices` from then on. `hal_get` walks `devices` and
compares names with the kernel's own `strcmp`; `hal_register` calls it inside
its own critical section.

Key definitions: `strcmp`, `Registry.halGet`, `Registry.halRegister`, `Registry.Registered`.
Key theorems: `strcmp_eq_zero_iff`, `Registered.halGet`,
`Registered.halRegister`, `device_registry`.
-/
import NanoOS.Adt.List
import NanoOS.Drivers.Hal
import NanoOS.Lib.Trans

namespace NanoOS

/-! ### Strings -/

/-- A string: its characters, without the NUL that ends it. -/
@[ext]
structure CString where
  chars : List (BitVec 8)
  noNul : 0 ∉ chars
  deriving DecidableEq

/-- The string as the drivers' list of devices has it. -/
def CString.toString (x : CString) : String := String.ofList (x.chars.map fun c => Char.ofNat c.toNat)

theorem CString.toString_inj {x y : CString} : x.toString = y.toString ↔ x = y := by
  have hchar : Function.Injective fun c : BitVec 8 => Char.ofNat c.toNat := by
    intro c c' heq
    have hcode : ∀ c : BitVec 8, (Char.ofNat c.toNat).toNat = c.toNat := by
      intro c
      have hvalid : c.toNat.isValidChar := .inl (by omega)
      unfold Char.ofNat
      rw [dif_pos hvalid]
      rfl
    apply BitVec.eq_of_toNat_eq
    calc c.toNat = (Char.ofNat c.toNat).toNat := (hcode c).symm
      _ = (Char.ofNat c'.toNat).toNat := congrArg Char.toNat heq
      _ = c'.toNat := hcode c'
  refine ⟨fun heq => CString.ext ?_, congrArg _⟩
  exact List.map_injective_iff.mpr hchar (String.ofList_injective heq)

/-- `strcmp`. A `char` is signed. -/
def strcmp : List (BitVec 8) → List (BitVec 8) → ℤ
  | [], [] => 0
  | [], _ :: _ => -1
  | _ :: _, [] => 1
  | c1 :: p1, c2 :: p2 => if c1.toInt < c2.toInt then -1 else if c2.toInt < c1.toInt then 1 else strcmp p1 p2

/-- `strcmp` returns zero for equal strings only. -/
theorem strcmp_eq_zero_iff : ∀ {p1 p2 : List (BitVec 8)}, strcmp p1 p2 = 0 ↔ p1 = p2
  | [], [] => by simp [strcmp]
  | [], _ :: _ => by simp [strcmp]
  | _ :: _, [] => by simp [strcmp]
  | c1 :: p1, c2 :: p2 => by
    unfold strcmp
    rw [List.cons.injEq, ← strcmp_eq_zero_iff, ← BitVec.toInt_inj]
    split
    · exact ⟨fun h => absurd h (by decide), fun h => absurd h.1 (by omega)⟩
    · split
      · exact ⟨fun h => absurd h (by decide), fun h => absurd h.1 (by omega)⟩
      · exact ⟨fun h => ⟨by omega, h⟩, And.right⟩

namespace Registry

open Ringlist Trans

/-- `NR_DEV`. -/
def nrDev : ℕ := 16

/-- A `ListHead`: `free_dev`, `devices` or `dev_pool[k].list`. -/
inductive Ptr
  | freeDev
  | devices
  | pool (k : ℕ)
  deriving DecidableEq

/-- A `Dev` without its `list`. -/
structure Entry where
  name : CString
  pid : ℤ
  devId : ℤ
  deriving DecidableEq

/-- The device, as its users see it. -/
def Entry.toDev (e : Entry) : Dev := ⟨e.name.toString, e.pid, e.devId⟩

/-- `dev_pool`, without the links, the links, and `lock_count`. -/
structure State where
  dev : ℕ → Entry
  links : Heap Ptr
  lockCount : ℤ

/-- How a call ends that does not return: the panics, the failed assertion of
`hal_get_id`, and a walk along `devices` that does not come back to its head. -/
inductive Fault
  | noRoom
  | registered (name : CString)
  | assertion
  | stray
  deriving DecidableEq

/-- `init_hal`. -/
def initHal (s : State) : State :=
  { s with
    links := listInit .devices
      ((List.range nrDev).foldl (fun m i => listAddBefore .freeDev (.pool i) m) (listInit .freeDev s.links)) }

/-- `lock`, as to `lock_count`. -/
def lock (s : State) : State := { s with lockCount := s.lockCount + 1 }

/-- `unlock`, as to `lock_count`. -/
def unlock (s : State) : State := { s with lockCount := s.lockCount - 1 }

/-- `strcmp(dev->name, name) == 0`. The loop asks it of the nodes in `devices`. -/
def hasName (name : CString) (s : State) : Ptr → Bool
  | .pool k => strcmp (s.dev k).name.chars name.chars = 0
  | _ => false

/-- `hal_get`: the index of the entry, or `none` for `NULL`. -/
def halGet (name : CString) (s : State) : Except Fault (Option ℕ × State) :=
  let s := lock s
  match listForeach .devices (hasName name s) s.links (nrDev + 1) with
  | some (.pool k) => .ok (some k, unlock s)
  | some .devices => .ok (none, unlock s)
  | _ => .error .stray

/-- `hal_get_id`. -/
def halGetId (name : CString) (s : State) : Except Fault ((ℤ × ℤ) × State) :=
  match halGet name s with
  | .error f => .error f
  | .ok (none, _) => .error .assertion
  | .ok (some k, s) => .ok (((s.dev k).pid, (s.dev k).devId), s)

/-- `hal_register`. -/
def halRegister (e : Entry) (s : State) : Except Fault State :=
  let s := lock s
  if listEmpty .freeDev s.links then .error .noRoom
  else
    match halGet e.name s with
    | .error f => .error f
    | .ok (some _, _) => .error (.registered e.name)
    | .ok (none, s) =>
      match (s.links .freeDev).next with
      | some (.pool k) =>
        .ok (unlock {
          dev := Function.update s.dev k e
          links := listAddBefore .devices (.pool k) (listDel (.pool k) s.links)
          lockCount := s.lockCount })
      | _ => .error .stray

/-- The calls. -/
inductive Call
  | get (name : CString)
  | register (e : Entry)

/-- A call that returns. -/
def step (s : State) : Call → Option State
  | .get name => (halGet name s).toOption.map Prod.snd
  | .register e => (halRegister e s).toOption

/-- What was registered, in order. -/
def record (_ : State) (c : Call) (entries : List Entry) : List Entry :=
  match c with
  | .get _ => entries
  | .register e => entries ++ [e]

/-! ### The two lists -/

/-- The heads of the lists. -/
def IsHead (p : Ptr) : Prop := p = .freeDev ∨ p = .devices

/-- The lists once `n` devices are registered: entries are taken from the pool
in order. -/
def listsOf (n : ℕ) : Ptr → List Ptr
  | .freeDev => (List.range' n (nrDev - n)).map .pool
  | .devices => (List.range n).map .pool
  | .pool _ => []

theorem perm_listsOf {n : ℕ} (hn : n ≤ nrDev) :
    (listsOf n .freeDev ++ listsOf n .devices).Perm ((List.range nrDev).map .pool) := by
  have hsplit : List.range nrDev = List.range n ++ List.range' n (nrDev - n) := by
    have happend : List.range' 0 n ++ List.range' (0 + n) (nrDev - n) = List.range' 0 (n + (nrDev - n)) :=
      List.range'_append_1
    rw [Nat.zero_add, Nat.add_sub_cancel' hn] at happend
    rw [List.range_eq_range', List.range_eq_range', happend]
  rw [hsplit, List.map_append]
  exact List.perm_append_comm

/-- `s` holds these entries, at lock depth `n`. -/
structure Registered (n : ℤ) (entries : List Entry) (s : State) : Prop where
  rings : Rings s.links IsHead (listsOf entries.length)
  bound : entries.length ≤ nrDev
  dev : (List.range entries.length).map s.dev = entries
  names : entries.Pairwise fun e e' => e.name ≠ e'.name
  lockCount : s.lockCount = n

theorem rings_fill (m : Heap Ptr) : ∀ k : ℕ,
    Rings ((List.range k).foldl (fun m i => listAddBefore .freeDev (.pool i) m) (listInit .freeDev m))
      (· = .freeDev) (Function.update (fun _ => []) .freeDev ((List.range k).map .pool))
  | 0 => by
    have hnone : Rings m (fun _ : Ptr => False) (fun _ => []) := ⟨fun _ h => h.elim, fun _ _ h => h.elim⟩
    have hfirst := Rings.listInit (x := .freeDev) hnone (by rintro ⟨_, h, _⟩; exact h)
    have hlive : (fun a : Ptr => False ∨ a = .freeDev) = (· = .freeDev) := funext fun a => false_or _
    exact hlive ▸ hfirst
  | k + 1 => by
    have hnew : ¬ InRings (· = .freeDev)
        (Function.update (fun _ => []) Ptr.freeDev ((List.range k).map Ptr.pool)) (.pool k) := by
      rintro ⟨p, rfl, hmem⟩
      rw [Function.update_self, List.mem_cons] at hmem
      rcases hmem with heq | hmem
      · cases heq
      · obtain ⟨i, hi, heq⟩ := List.mem_map.mp hmem
        cases heq
        exact List.not_mem_range_self hi
    have hadd := Rings.listAddBefore (rings_fill m k) rfl hnew
    rw [Function.update_idem, Function.update_self] at hadd
    rw [List.range_succ, List.foldl_append, List.map_append]
    exact hadd

/-- After `init_hal` the whole pool is free. -/
theorem rings_initHal (s : State) : Rings (initHal s).links IsHead (listsOf 0) := by
  have hnew : ¬ InRings (· = .freeDev)
      (Function.update (fun _ => []) Ptr.freeDev ((List.range nrDev).map Ptr.pool)) .devices := by
    rintro ⟨p, rfl, hmem⟩
    rw [Function.update_self] at hmem
    revert hmem
    decide
  apply (Rings.listInit (rings_fill s.links nrDev) hnew).congr_seq
  rintro a (rfl | rfl)
  · decide
  · decide

namespace Registered

variable {n : ℤ} {entries : List Entry} {s s' : State} {name : CString} {e : Entry}

theorem init (s : State) : Registered s.lockCount [] (initHal s) :=
  ⟨rings_initHal s, Nat.zero_le _, rfl, .nil, rfl⟩

theorem hasName_pool (name : CString) (s : State) (k : ℕ) :
    hasName name s (.pool k) = decide ((s.dev k).name = name) :=
  decide_eq_decide.mpr (strcmp_eq_zero_iff.trans CString.ext_iff.symm)

theorem walk (h : Registered n entries s) (name : CString) :
    listForeach .devices (hasName name s) s.links (nrDev + 1) =
      some ((((List.range entries.length).find? fun k => decide ((s.dev k).name = name)).map Ptr.pool).getD
        .devices) := by
  have hlen : (listsOf entries.length .devices).length < nrDev + 1 := by
    unfold listsOf
    dsimp only
    rw [List.length_map, List.length_range]
    exact Nat.lt_succ_of_le h.bound
  rw [Ring.listForeach (h.rings.ring .devices (.inr rfl)) (hasName name s) hlen]
  unfold listsOf
  dsimp only
  rw [List.find?_map]
  have hname : hasName name s ∘ Ptr.pool = fun k => decide ((s.dev k).name = name) :=
    funext fun k => hasName_pool name s k
  rw [hname]

theorem lock_registered (h : Registered n entries s) : Registered (n + 1) entries (lock s) :=
  ⟨h.rings, h.bound, h.dev, h.names, congrArg (· + 1) h.lockCount⟩

theorem unlock_lock (s : State) : unlock (lock s) = s := by
  unfold unlock lock
  dsimp only
  rw [Int.add_sub_cancel]

/-- **`hal_get`** finds what was registered, and leaves everything as it was. -/
theorem halGet (h : Registered n entries s) (name : CString) :
    ∃ r, Registry.halGet name s = .ok (r, s) ∧ r.map s.dev = entries.find? fun e => e.name = name := by
  have hfind : ((List.range entries.length).find? fun k => decide ((s.dev k).name = name)).map s.dev =
      entries.find? fun e => e.name = name := by
    conv_rhs => rw [← h.dev]
    rw [List.find?_map]
    rfl
  refine ⟨_, ?_, hfind⟩
  unfold Registry.halGet
  dsimp only
  rw [h.lock_registered.walk name, unlock_lock]
  have hdev : (lock s).dev = s.dev := rfl
  rw [hdev]
  cases (List.range entries.length).find? fun k => decide ((s.dev k).name = name) with
  | none => rfl
  | some k => rfl

/-- `hal_get_id` returns what was registered under the name. -/
theorem halGetId (h : Registered n entries s) (name : CString) :
    Registry.halGetId name s = match entries.find? fun e => e.name = name with
      | some e => .ok ((e.pid, e.devId), s)
      | none => .error .assertion := by
  obtain ⟨r, hget, hr⟩ := h.halGet name
  unfold Registry.halGetId
  rw [hget, ← hr]
  cases r with
  | none => rfl
  | some k => rfl

/-- The list of devices that `hal_get` looks a name up in. -/
theorem halGet_devices (h : Registered n entries s) (name : CString) :
    ∃ r, Registry.halGet name s = .ok (r, s) ∧
      r.map (fun k => (s.dev k).toDev) = NanoOS.halGet name.toString (entries.map Entry.toDev) := by
  obtain ⟨r, hget, hr⟩ := h.halGet name
  refine ⟨r, hget, ?_⟩
  have hname : (fun dev : Dev => decide (dev.name = name.toString)) ∘ Entry.toDev = fun e => decide (e.name = name) :=
    funext fun e => decide_eq_decide.mpr CString.toString_inj
  unfold NanoOS.halGet
  rw [List.find?_map, hname, ← hr, Option.map_map]
  rfl

/-- The pool is used up when the last device is registered. -/
theorem listEmpty_iff (h : Registered n entries s) : listEmpty .freeDev s.links = true ↔ entries.length = nrDev := by
  rw [Ring.listEmpty_iff (h.rings.ring .freeDev (.inl rfl))]
  unfold listsOf
  dsimp only
  have hbound := h.bound
  rw [List.map_eq_nil_iff, List.range'_eq_nil_iff]
  omega

theorem next_free (h : Registered n entries s) (hroom : entries.length ≠ nrDev) :
    (s.links .freeDev).next = some (.pool entries.length) := by
  have hbound := h.bound
  obtain ⟨r, hr⟩ : ∃ r, nrDev - entries.length = r + 1 := ⟨nrDev - entries.length - 1, by omega⟩
  rw [Ring.next_head (h.rings.ring .freeDev (.inl rfl))]
  unfold listsOf
  dsimp only
  rw [hr]
  rfl

theorem rings_move (h : Registered n entries s) (hroom : entries.length ≠ nrDev) :
    Rings (listAddBefore .devices (.pool entries.length) (listDel (.pool entries.length) s.links)) IsHead
      (listsOf (entries.length + 1)) := by
  have hbound := h.bound
  have hfree : listsOf entries.length .freeDev = .pool entries.length :: listsOf (entries.length + 1) .freeDev := by
    obtain ⟨r, hr⟩ : ∃ r, nrDev - entries.length = r + 1 := ⟨nrDev - entries.length - 1, by omega⟩
    have hr' : nrDev - (entries.length + 1) = r := by omega
    unfold listsOf
    dsimp only
    rw [hr, hr', List.range'_succ]
    rfl
  have hmem : Ptr.pool entries.length ∈ listsOf entries.length .freeDev := hfree ▸ List.mem_cons_self
  apply (Rings.move h.rings (.inl rfl) hmem (.inr rfl)).congr_seq
  unfold moved
  rintro a (rfl | rfl)
  · rw [if_neg (by decide), hfree, List.erase_cons_head]
  · have hnew : Ptr.pool entries.length ∉ listsOf entries.length .devices := by
      intro hin
      obtain ⟨i, hi, heq⟩ := List.mem_map.mp (show _ ∈ (List.range entries.length).map Ptr.pool from hin)
      cases heq
      exact List.not_mem_range_self hi
    rw [if_pos rfl, List.erase_of_not_mem hnew]
    unfold listsOf
    dsimp only
    rw [List.range_succ, List.map_append]
    rfl

/-- The entry is filled in and moved, and `unlock` undoes `lock`. -/
theorem append (h : Registered (n + 1) entries s) (hroom : entries.length ≠ nrDev)
    (hfresh : e.name ∉ entries.map Entry.name) :
    Registered n (entries ++ [e]) (unlock {
      dev := Function.update s.dev entries.length e
      links := listAddBefore .devices (.pool entries.length) (listDel (.pool entries.length) s.links)
      lockCount := s.lockCount }) := by
  have hbound := h.bound
  have hlen : (entries ++ [e]).length = entries.length + 1 := List.length_append
  refine ⟨hlen ▸ h.rings_move hroom, by omega, ?_, ?_, ?_⟩
  · have hold : (List.range entries.length).map (Function.update s.dev entries.length e) = entries := by
      refine Eq.trans (List.map_congr_left fun k hk => ?_) h.dev
      exact Function.update_of_ne (Nat.ne_of_lt (List.mem_range.mp hk)) ..
    rw [hlen, List.range_succ, List.map_append]
    unfold unlock
    dsimp only
    rw [hold, List.map_singleton, Function.update_self]
  · refine List.pairwise_append.mpr ⟨h.names, List.pairwise_singleton .., fun e' he' e'' he'' heq => ?_⟩
    rw [List.mem_singleton.mp he''] at heq
    exact hfresh (List.mem_map.mpr ⟨e', he', heq⟩)
  · have hcount := h.lockCount
    unfold unlock
    dsimp only
    omega

/-- **`hal_register`** panics if there is no room or the name is taken, and
else puts the entry into the list. -/
theorem halRegister (h : Registered n entries s) (e : Entry) :
    if entries.length = nrDev then Registry.halRegister e s = .error .noRoom
    else if e.name ∈ entries.map Entry.name then Registry.halRegister e s = .error (.registered e.name)
    else ∃ s', Registry.halRegister e s = .ok s' ∧ Registered n (entries ++ [e]) s' := by
  have hl := h.lock_registered
  obtain ⟨r, hget, hr⟩ := hl.halGet e.name
  unfold Registry.halRegister
  dsimp only
  split
  · rename_i hfull
    rw [if_pos (hl.listEmpty_iff.mpr hfull)]
  · rename_i hroom
    rw [if_neg (mt hl.listEmpty_iff.mp hroom), hget]
    split
    · rename_i htaken
      obtain ⟨e', he', hname⟩ := List.mem_map.mp htaken
      cases r with
      | none =>
        have hnone := List.find?_eq_none.mp hr.symm e' he'
        exact absurd (decide_eq_true hname) hnone
      | some k => rfl
    · rename_i hfresh
      cases r with
      | some k =>
        have hfound : entries.find? (fun e' => decide (e'.name = e.name)) = some ((lock s).dev k) := hr.symm
        have hname := List.find?_some (p := fun e' : Entry => decide (e'.name = e.name)) hfound
        exact absurd (List.mem_map.mpr ⟨_, List.mem_of_find?_eq_some hfound, of_decide_eq_true hname⟩) hfresh
      | none =>
        dsimp only
        rw [hl.next_free hroom]
        exact ⟨_, rfl, hl.append hroom hfresh⟩

end Registered

/-! ### Runs -/

/-- `s` is the registry after some sequence of calls that all returned, begun at
lock depth `n`, the devices registered being `entries`. -/
def After (n : ℤ) (s : State) (entries : List Entry) : Prop :=
  ∃ s0 : State, s0.lockCount = n ∧
    Reach (withHistory step record) (fun _ _ => True) (initHal s0, []) (s, entries)

theorem After.registered {n : ℤ} {s : State} {entries : List Entry} (h : After n s entries) :
    Registered n entries s := by
  obtain ⟨s0, rfl, hreach⟩ := h
  refine Reach.invariant (I := fun p : State × List Entry => Registered s0.lockCount p.2 p.1) hreach (.init s0) ?_
  rintro ⟨s, entries⟩ c ⟨s', entries'⟩ hreg _ hstep
  obtain ⟨hstep, hrecord⟩ := withHistory_eq_some.mp hstep
  dsimp only at hreg hstep hrecord ⊢
  cases c with
  | get name =>
    obtain ⟨r, hget, -⟩ := hreg.halGet name
    unfold step at hstep
    dsimp only at hstep
    rw [hget] at hstep
    cases hstep
    exact hrecord ▸ hreg
  | register e =>
    have hspec := hreg.halRegister e
    unfold step at hstep
    dsimp only at hstep
    split at hspec
    · rw [hspec] at hstep
      cases hstep
    · split at hspec
      · rw [hspec] at hstep
        cases hstep
      · obtain ⟨u, hu, hnew⟩ := hspec
        rw [hu] at hstep
        cases hstep
        exact hrecord ▸ hnew

/-- **The device registry is a map.** The pool is divided between the two lists,
the names are different strings, `hal_get` finds exactly what was registered,
`hal_register` panics exactly if the pool is used up or the name taken, and
every call that returns leaves `lock_count` as it was. -/
theorem device_registry {n : ℤ} {s : State} {entries : List Entry} (h : After n s entries) :
    Rings s.links IsHead (listsOf entries.length) ∧
      (listsOf entries.length .freeDev ++ listsOf entries.length .devices).Perm ((List.range nrDev).map .pool) ∧
      (List.range entries.length).map s.dev = entries ∧
      entries.Pairwise (fun e e' => e.name ≠ e'.name) ∧
      (∀ name, ∃ r s', halGet name s = .ok (r, s') ∧ s'.lockCount = s.lockCount ∧
        r.map s.dev = entries.find? fun e => e.name = name) ∧
      ∀ e, (halRegister e s = .error .noRoom ∨ halRegister e s = .error (.registered e.name) ↔
          entries.length = nrDev ∨ e.name ∈ entries.map Entry.name) ∧
        (¬ (entries.length = nrDev ∨ e.name ∈ entries.map Entry.name) →
          ∃ s', halRegister e s = .ok s' ∧ s'.lockCount = s.lockCount) := by
  have hreg := h.registered
  refine ⟨hreg.rings, perm_listsOf hreg.bound, hreg.dev, hreg.names, fun name => ?_, fun e => ?_⟩
  · obtain ⟨r, hget, hr⟩ := hreg.halGet name
    exact ⟨r, s, hget, rfl, hr⟩
  · have hspec := hreg.halRegister e
    split at hspec
    · rename_i hfull
      exact ⟨⟨fun _ => .inl hfull, fun _ => .inl hspec⟩, fun hok => absurd (.inl hfull) hok⟩
    · rename_i hroom
      split at hspec
      · rename_i htaken
        exact ⟨⟨fun _ => .inr htaken, fun _ => .inr hspec⟩, fun hok => absurd (.inr htaken) hok⟩
      · rename_i hfresh
        obtain ⟨s', hs', hnew⟩ := hspec
        refine ⟨⟨fun hpanic => ?_, fun hcond => (hcond.elim hroom hfresh).elim⟩,
          fun _ => ⟨s', hs', hnew.lockCount.trans hreg.lockCount.symm⟩⟩
        rw [hs'] at hpanic
        rcases hpanic with hpanic | hpanic
        · cases hpanic
        · cases hpanic

theorem device_registry_two :
    ∃ s, After 0 s [⟨⟨[116], by decide⟩, 4, 0⟩, ⟨⟨[116, 200], by decide⟩, 5, 1⟩] ∧
      (∃ r s', halGet ⟨[116, 200], by decide⟩ s = .ok (r, s') ∧ s'.lockCount = s.lockCount ∧
        r.map s.dev = some ⟨⟨[116, 200], by decide⟩, 5, 1⟩) ∧
      ∃ s', halRegister ⟨⟨[], by decide⟩, 6, 2⟩ s = .ok s' ∧ s'.lockCount = s.lockCount := by
  have hreach : ∃ p : State × List Entry, Reach (withHistory step record) (fun _ _ => True)
      (initHal ⟨fun _ => ⟨⟨[], by decide⟩, 0, 0⟩, fun _ => ⟨none, none⟩, 0⟩, []) p ∧
      p.2 = [⟨⟨[116], by decide⟩, 4, 0⟩, ⟨⟨[116, 200], by decide⟩, 5, 1⟩] :=
    Reach.exists_of_exec [.register ⟨⟨[116], by decide⟩, 4, 0⟩, .get ⟨[116], by decide⟩,
      .register ⟨⟨[116, 200], by decide⟩, 5, 1⟩] (by decide +kernel)
  obtain ⟨⟨s, entries⟩, hreach, rfl⟩ := hreach
  have h : After 0 s _ := ⟨_, rfl, hreach⟩
  obtain ⟨-, -, -, -, hget, hreg⟩ := device_registry h
  exact ⟨s, h, hget _, (hreg ⟨⟨[], by decide⟩, 6, 2⟩).2 (by decide)⟩

end Registry
end NanoOS
