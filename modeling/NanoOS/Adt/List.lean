/-
# The intrusive lists of `adt/list.h`

The operations of `list.h` on the heap of `ListHead`s, pointer assignment by
pointer assignment and with the null tests of the source, and what each does
to a family of circular lists (`Ringlist.Rings`): a node is appended, put in
front or taken out, and no other list changes.

The `assert(... != NULL)` of the source say that the arguments are nodes;
here they are nodes by their type.
-/
import NanoOS.Lib.Ring

namespace NanoOS

open Ringlist

variable {α : Type*} [DecidableEq α]

/-- `list_add`: link `data` in between `prev` and `next`. -/
def listAdd (prev next : Option α) (data : α) (m : Heap α) : Heap α :=
  let m1 := Function.update m data ⟨prev, next⟩
  let m2 := match prev with
    | some p => Function.update m1 p { m1 p with next := some data }
    | none => m1
  match next with
  | some n => Function.update m2 n { m2 n with prev := some data }
  | none => m2

/-- `list_add_before`. -/
def listAddBefore (list data : α) (m : Heap α) : Heap α := listAdd (m list).prev (some list) data m

/-- `list_add_after`. -/
def listAddAfter (list data : α) (m : Heap α) : Heap α := listAdd (some list) (m list).next data m

/-- `list_del`: the node's own links keep their old values. -/
def listDel (data : α) (m : Heap α) : Heap α :=
  let prev := (m data).prev
  let next := (m data).next
  let m1 := match prev with
    | some p => Function.update m p { m p with next := next }
    | none => m
  match next with
  | some n => Function.update m1 n { m1 n with prev := prev }
  | none => m1

/-- `list_init`. -/
def listInit (list : α) (m : Heap α) : Heap α := Function.update m list ⟨some list, some list⟩

/-- `list_empty`. -/
def listEmpty (list : α) (m : Heap α) : Bool := some list = (m list).next

/-- Where `p` is after `list_foreach(p, head) { if (found(p)) break; }`, started
at `p`. It is `none` if the loop follows a null pointer, or has not ended after
`fuel` rounds. -/
def listSearch (head : α) (found : α → Bool) (m : Heap α) : ℕ → Option α → Option α
  | 0, _ => none
  | _ + 1, none => none
  | fuel + 1, some p =>
    if p = head then some head else if found p then some p else listSearch head found m fuel (m p).next

/-- The loop, from the first node on. -/
def listForeach (head : α) (found : α → Bool) (m : Heap α) (fuel : ℕ) : Option α :=
  listSearch head found m fuel (m head).next

/-- What `list_foreach(p, head) s = body(s, p);` makes of `s`, started at `p`,
where the body leaves the links alone. It is `none` if the loop follows a null
pointer, or has not ended after `fuel` rounds. -/
def listWalk {β : Type*} (head : α) (body : β → α → β) (m : Heap α) : ℕ → Option α → β → Option β
  | 0, _, _ => none
  | _ + 1, none, _ => none
  | fuel + 1, some p, s => if p = head then some s else listWalk head body m fuel (m p).next (body s p)

/-- The whole loop, from the first node on. -/
def listForeachDo {β : Type*} (head : α) (body : β → α → β) (m : Heap α) (fuel : ℕ) (s : β) : Option β :=
  listWalk head body m fuel (m head).next s

/-! ### What they do to the links -/

theorem listAdd_insert (p n x : α) (m : Heap α) : Insert m (listAdd (some p) (some n) x m) p n x := by
  constructor
  · intro a
    simp only [listAdd, Function.update_apply]
    split_ifs <;> simp_all
  · intro a
    simp only [listAdd, Function.update_apply]
    split_ifs <;> simp_all

theorem listDel_remove {p n x : α} {m : Heap α} (hp : (m x).prev = some p) (hn : (m x).next = some n) :
    Remove m (listDel x m) p n := by
  constructor
  · intro a
    simp only [listDel, hp, hn, Function.update_apply]
    split_ifs <;> simp_all
  · intro a
    simp only [listDel, hp, hn, Function.update_apply]
    split_ifs <;> simp_all

theorem listInit_self (x : α) (m : Heap α) : listInit x m x = ⟨some x, some x⟩ := by
  simp [listInit]

theorem listInit_of_ne {x a : α} (h : a ≠ x) (m : Heap α) : listInit x m a = m a := by
  simp [listInit, h]

theorem Ring.listEmpty_iff {m : Heap α} {h : α} {xs : List α} (hr : Ring m h xs) :
    listEmpty h m = true ↔ xs = [] := by
  rw [← hr.next_eq_self_iff, listEmpty, decide_eq_true_iff, eq_comm]

theorem listSearch_eq {m : Heap α} {h : α} (found : α → Bool) : ∀ {fuel : ℕ} {xs : List α}, h ∉ xs → xs.length < fuel →
    List.IsChain (Linked m) (xs ++ [h]) → listSearch h found m fuel (some (xs.headD h)) = some ((xs.find? found).getD h)
  | 0, _, _, hlt, _ => absurd hlt (Nat.not_lt_zero _)
  | fuel + 1, [], _, _, _ => if_pos rfl
  | fuel + 1, x :: xs, hh, hlt, hc => by
    rw [List.mem_cons, not_or] at hh
    rw [List.length_cons] at hlt
    have hnext : (m x).next = some (xs.headD h) := next_of_chain hc
    unfold listSearch
    rw [List.headD_cons, if_neg (Ne.symm hh.1), List.find?_cons]
    cases found x with
    | true => rfl
    | false =>
      rw [if_neg (by decide), hnext]
      exact listSearch_eq found hh.2 (by omega) hc.tail

/-- **`list_foreach`** with a `break` ends at the first node that is found, or
at the head. -/
theorem Ring.listForeach {m : Heap α} {h : α} {xs : List α} (hr : Ring m h xs) (found : α → Bool) {fuel : ℕ}
    (hlt : xs.length < fuel) : NanoOS.listForeach h found m fuel = some ((xs.find? found).getD h) := by
  unfold NanoOS.listForeach
  rw [hr.next_head]
  exact listSearch_eq found hr.not_mem hlt hr.chain.tail

theorem listWalk_eq {β : Type*} {m : Heap α} {h : α} (body : β → α → β) : ∀ {fuel : ℕ} {xs : List α} (s : β),
    h ∉ xs → xs.length < fuel → List.IsChain (Linked m) (xs ++ [h]) →
    listWalk h body m fuel (some (xs.headD h)) s = some (xs.foldl body s)
  | 0, _, _, _, hlt, _ => absurd hlt (Nat.not_lt_zero _)
  | fuel + 1, [], _, _, _, _ => if_pos rfl
  | fuel + 1, x :: xs, s, hh, hlt, hc => by
    rw [List.mem_cons, not_or] at hh
    rw [List.length_cons] at hlt
    have hnext : (m x).next = some (xs.headD h) := next_of_chain hc
    unfold listWalk
    rw [List.headD_cons, if_neg (Ne.symm hh.1), hnext, List.foldl_cons]
    exact listWalk_eq body (body s x) hh.2 (by omega) hc.tail

/-- **`list_foreach`** meets the nodes of the list, each once and in order, and
ends. -/
theorem Ring.listForeachDo {β : Type*} {m : Heap α} {h : α} {xs : List α} (hr : Ring m h xs) (body : β → α → β)
    {fuel : ℕ} (hlt : xs.length < fuel) (s : β) :
    NanoOS.listForeachDo h body m fuel s = some (xs.foldl body s) := by
  unfold NanoOS.listForeachDo
  rw [hr.next_head]
  exact listWalk_eq body s hr.not_mem hlt hr.chain.tail

/-! ### What they do to a family of lists -/

section family

variable {m : Heap α} {live : α → Prop} {seq : α → List α} {h x : α}

theorem Rings.listAddBefore (hr : Rings m live seq) (hh : live h) (hx : ¬ InRings live seq x) :
    Rings (listAddBefore h x m) live (Function.update seq h (seq h ++ [x])) := by
  refine hr.insert_last hh hx ?_
  rw [NanoOS.listAddBefore, (hr.ring h hh).prev_head]
  exact listAdd_insert _ _ _ _

/-- `list_add_before` leaves alone what is neither in a list nor the node
itself. -/
theorem Rings.listAddBefore_frame (hr : Rings m live seq) (hh : live h) {a : α} (hax : a ≠ x)
    (ha : ¬ InRings live seq a) : NanoOS.listAddBefore h x m a = m a := by
  rw [NanoOS.listAddBefore, (hr.ring h hh).prev_head]
  exact (listAdd_insert _ _ _ _).frame (fun e => ha ⟨h, hh, e ▸ List.getLast_mem _⟩)
    (fun e => ha ⟨h, hh, e ▸ List.mem_cons_self⟩) hax

theorem Rings.listAddAfter (hr : Rings m live seq) (hh : live h) (hx : ¬ InRings live seq x) :
    Rings (listAddAfter h x m) live (Function.update seq h (x :: seq h)) := by
  refine hr.insert_first hh hx ?_
  rw [NanoOS.listAddAfter, (hr.ring h hh).next_head]
  exact listAdd_insert _ _ _ _

theorem Rings.listDel (hr : Rings m live seq) (hh : live h) (hx : x ∈ seq h) :
    Rings (listDel x m) live (Function.update seq h ((seq h).erase x)) := by
  obtain ⟨l, r, hs⟩ := List.append_of_mem hx
  have hring := hr.ring h hh
  have hxl : x ∉ l := by
    have hnd := (List.nodup_cons.mp hring.nodup).2
    rw [hs] at hnd
    exact fun hm => (List.nodup_append.mp hnd).2.2 x hm x List.mem_cons_self rfl
  have herase : (seq h).erase x = l ++ r := by
    rw [hs, List.erase_append_right _ hxl, List.erase_cons_head]
  rw [hs] at hring
  obtain ⟨hp, hn⟩ := hring.around
  rw [herase]
  exact hr.remove hh hs (listDel_remove hp hn)

theorem Rings.listInit (hr : Rings m live seq) (hx : ¬ InRings live seq x) :
    Rings (listInit x m) (fun a => live a ∨ a = x) (Function.update seq x []) :=
  hr.add_empty hx (listInit_self x m) fun _ ha => listInit_of_ne ha m

/-- The sequences after `x` has moved to the end of the list of `h`. -/
def moved (seq : α → List α) (x h : α) : α → List α :=
  fun a => if a = h then (seq a).erase x ++ [x] else (seq a).erase x

/-- `list_del` and then `list_add_before`: the node moves to the end of
another list, or of its own. -/
theorem Rings.move (hr : Rings m live seq) {h1 : α} (hh1 : live h1) (hx : x ∈ seq h1) (hh : live h) :
    Rings (NanoOS.listAddBefore h x (NanoOS.listDel x m)) live (moved seq x h) := by
  have hring := hr.ring h1 hh1
  have hxh1 : x ≠ h1 := fun e => hring.not_mem (e ▸ hx)
  have hother : ∀ a, live a → a ≠ h1 → x ∉ a :: seq a := fun a ha hne =>
    hr.not_mem_other hh1 ha hne (List.mem_cons_of_mem _ hx)
  have h1r := Rings.listDel hr hh1 hx
  have hout : ¬ InRings live (Function.update seq h1 ((seq h1).erase x)) x := by
    rintro ⟨a, ha, hm⟩
    by_cases he : a = h1
    · subst he
      rw [Function.update_self, List.mem_cons] at hm
      rcases hm with hm | hm
      · exact hxh1 hm
      · exact (List.Nodup.not_mem_erase (List.nodup_cons.mp hring.nodup).2) hm
    · rw [Function.update_of_ne he] at hm
      exact hother a ha he hm
  have h2r := Rings.listAddBefore h1r hh hout
  -- on the live heads these are the moved sequences
  have hseq : ∀ a, live a → Function.update (Function.update seq h1 ((seq h1).erase x)) h
      (Function.update seq h1 ((seq h1).erase x) h ++ [x]) a = moved seq x h a := by
    intro a ha
    have hbase : Function.update seq h1 ((seq h1).erase x) a = (seq a).erase x := by
      by_cases he : a = h1
      · subst he; rw [Function.update_self]
      · rw [Function.update_of_ne he, List.erase_of_not_mem]
        exact fun hm => hother a ha he (List.mem_cons_of_mem _ hm)
    by_cases he : a = h
    · subst he; rw [Function.update_self, hbase]; simp [moved]
    · rw [Function.update_of_ne he, hbase]; simp [moved, he]
  exact h2r.congr_seq hseq

theorem Rings.move_frame (hr : Rings m live seq) {h1 : α} (hh1 : live h1) (hx : x ∈ seq h1) (hh : live h)
    {a : α} (hax : a ≠ x) (ha : ¬ InRings live seq a) :
    NanoOS.listAddBefore h x (NanoOS.listDel x m) a = m a := by
  obtain ⟨l, r, hs⟩ := List.append_of_mem hx
  have hring := hr.ring h1 hh1
  rw [hs] at hring
  obtain ⟨hp, hn⟩ := hring.around
  have hdel : NanoOS.listDel x m a = m a := by
    refine (listDel_remove hp hn).frame (fun e => ha ⟨h1, hh1, ?_⟩) (fun e => ha ⟨h1, hh1, ?_⟩)
    · have hm : a ∈ h1 :: l := e ▸ List.getLast_mem _
      rw [hs]
      exact List.mem_append_left (x :: r) hm
    · rw [hs, e]
      cases r <;> simp
  rw [← hdel]
  refine Rings.listAddBefore_frame (Rings.listDel hr hh1 hx) hh hax ?_
  rintro ⟨b, hb, hm⟩
  refine ha ⟨b, hb, ?_⟩
  by_cases he : b = h1
  · subst he
    rw [Function.update_self] at hm
    exact List.cons_subset_cons b List.erase_subset hm
  · rwa [Function.update_of_ne he] at hm

theorem moved_of_ne {a : α} (hne : a ≠ h) (hx : x ∉ seq a) : moved seq x h a = seq a := by
  unfold moved
  rw [if_neg hne, List.erase_of_not_mem hx]

end family

/-- **The lists are sequences.** What the operations of `list.h` do to a family
of lists, as sequences of nodes: each changes the list it is for, and leaves the
nodes and the links of all others. A node that leaves its list for the end of a
list may leave it for the end of its own. -/
theorem list_ops_refine {m : Heap α} {live : α → Prop} {seq : α → List α} (hr : Rings m live seq) :
    (∀ x, ¬ InRings live seq x → Rings (listInit x m) (fun a => live a ∨ a = x) (Function.update seq x []) ∧
      ∀ a, live a → ∀ y ∈ a :: seq a, listInit x m y = m y) ∧
    (∀ h x, live h → ¬ InRings live seq x →
      (Rings (listAddBefore h x m) live (Function.update seq h (seq h ++ [x])) ∧
        ∀ a, live a → a ≠ h → ∀ y ∈ a :: seq a, listAddBefore h x m y = m y) ∧
      (Rings (listAddAfter h x m) live (Function.update seq h (x :: seq h)) ∧
        ∀ a, live a → a ≠ h → ∀ y ∈ a :: seq a, listAddAfter h x m y = m y)) ∧
    (∀ h x, live h → x ∈ seq h → Rings (listDel x m) live (Function.update seq h ((seq h).erase x)) ∧
      ∀ a, live a → a ≠ h → ∀ y ∈ a :: seq a, listDel x m y = m y) ∧
    (∀ h, live h → (listEmpty h m = true ↔ seq h = [])) ∧
    (∀ h, live h → ∀ (σ : Type) (body : σ → α → σ) (s : σ) (fuel : ℕ), (seq h).length < fuel →
      listForeachDo h body m fuel s = some ((seq h).foldl body s)) ∧
    (∀ h h2 x, live h → live h2 → x ∈ seq h →
      Rings (listAddBefore h2 x (listDel x m)) live
        (fun a => if a = h2 then (seq a).erase x ++ [x] else (seq a).erase x) ∧
      ∀ a, live a → a ≠ h → a ≠ h2 → (seq a).erase x = seq a ∧
        ∀ y ∈ a :: seq a, listAddBefore h2 x (listDel x m) y = m y) := by
  refine ⟨fun x hx => ?_, fun h x hh hx => ⟨?_, ?_⟩, fun h x hh hx => ?_, fun h hh => ?_,
    fun h hh σ body s fuel hlt => ?_, fun h h2 x hh hh2 hx => ?_⟩
  · have hnew := Rings.listInit hr hx
    refine ⟨hnew, fun a ha => hr.links_eq hnew ha (Or.inl ha) ?_⟩
    apply Function.update_of_ne
    rintro rfl
    exact hx ⟨a, ha, List.mem_cons_self⟩
  · have hnew := Rings.listAddBefore hr hh hx
    exact ⟨hnew, fun a ha hne => hr.links_eq hnew ha ha (Function.update_of_ne hne _ _)⟩
  · have hnew := Rings.listAddAfter hr hh hx
    exact ⟨hnew, fun a ha hne => hr.links_eq hnew ha ha (Function.update_of_ne hne _ _)⟩
  · have hnew := Rings.listDel hr hh hx
    exact ⟨hnew, fun a ha hne => hr.links_eq hnew ha ha (Function.update_of_ne hne _ _)⟩
  · exact Ring.listEmpty_iff (hr.ring h hh)
  · exact Ring.listForeachDo (hr.ring h hh) body hlt s
  · have hnew := Rings.move hr hh hx hh2
    refine ⟨hnew, fun a ha hne hne2 => ?_⟩
    have hout := hr.not_mem_seq hh hx ha hne
    exact ⟨List.erase_of_not_mem hout, hr.links_eq hnew ha ha (moved_of_ne hne2 hout)⟩

/-- Two lists: 0 with the nodes 2 and 3, and 1 with none. -/
def twoLists : Heap ℕ
  | 0 => ⟨some 3, some 2⟩
  | 1 => ⟨some 1, some 1⟩
  | 2 => ⟨some 0, some 3⟩
  | 3 => ⟨some 2, some 0⟩
  | _ => ⟨none, none⟩

/-- Their sequences. -/
def twoSeqs (a : ℕ) : List ℕ := if a = 0 then [2, 3] else []

theorem twoLists_rings : Rings twoLists (fun a => a = 0 ∨ a = 1) twoSeqs := by
  constructor
  · rintro h (rfl | rfl)
    · exact ⟨by simp [twoSeqs, twoLists, Linked], by decide⟩
    · exact ⟨by simp [twoSeqs, twoLists, Linked], by decide⟩
  · rintro h h' (rfl | rfl) (rfl | rfl) hne
    · exact absurd rfl hne
    · simp [twoSeqs]
    · simp [twoSeqs]
    · exact absurd rfl hne

/-- Node 2 leaves list 0 for the end of list 1; both are walked through. -/
theorem list_ops_refine_two_lists :
    Rings (listAddBefore 1 2 (listDel 2 twoLists)) (fun a => a = 0 ∨ a = 1)
      (fun a => if a = 1 then (twoSeqs a).erase 2 ++ [2] else (twoSeqs a).erase 2) ∧
    listForeachDo 0 (fun s a => s ++ [a]) twoLists 3 [] = some [2, 3] := by
  obtain ⟨-, -, -, -, hwalk, hmove⟩ := list_ops_refine twoLists_rings
  exact ⟨(hmove 0 1 2 (Or.inl rfl) (Or.inr rfl) (by decide)).1,
    hwalk 0 (Or.inl rfl) (List ℕ) (fun s a => s ++ [a]) [] 3 (by decide)⟩

end NanoOS
