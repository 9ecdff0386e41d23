/-
# The lists that `create_kthread` leaves

The words of the `ListHead`s are where the lists of `adt/list.h` live. Heads and
PCBs are at least eight bytes apart, so on them the stores of `list_del` and
`list_add_before` are the pointer assignments of the list model. Each creation
therefore leaves `free` and `block` in order for the next one, and all other
rings as well (`ready`, the lists of semaphores, the queues of messages), whose
nodes are PCBs or somewhere else: threads get the PCBs in the order of `free`,
and no PCB is given away twice.

Key definitions: `Pool.Clear`, `Apart`, `Creates`.
Key theorems: `linksOf_listDel`, `linksOf_listAddBefore`, `createKthread_lists`,
`creates_in_order`.
-/
import NanoOS.Process.Kthread

namespace NanoOS
namespace Kthread

open Ringlist

variable {L : Pool} {m : Mem} {live : ℕ → Prop} {seq : ℕ → List ℕ} {i sp : ℕ} {rest : List ℕ}

/-! ### Nodes -/

namespace Pool

variable {n k : ℕ}

theorem node_cases (hn : L.Node n) : n = L.free ∨ n = L.block ∨ ∃ i < 2048, n = L.pool + 16384 * i := hn

theorem node_apart (hn : L.Node n) (hk : L.Node k) : n = k ∨ n + 8 ≤ k ∨ k + 8 ≤ n := by
  have hfb := L.free_block
  have hfp := L.free_pool
  have hbp := L.block_pool
  rcases node_cases hn with hn | hn | ⟨i, hi, hn⟩
  all_goals rcases node_cases hk with hk | hk | ⟨j, hj, hk⟩
  all_goals omega

theorem node_range (hn : L.Node n) : 0 < n ∧ n < 4294967296 := by
  have hpos := L.pos
  have hinside := L.inside
  rcases node_cases hn with hn | hn | ⟨i, hi, hn⟩
  all_goals omega

/-- At least eight bytes from every head and PCB, or one of them. -/
def Clear (L : Pool) (a : ℕ) : Prop := ∀ n, L.Node n → a = n ∨ a + 8 ≤ n ∨ n + 8 ≤ a

theorem node_clear (hn : L.Node n) : L.Clear n := fun _ hk => node_apart hn hk

end Pool

theorem ptrOf_ptr {n : ℕ} (hn : L.Node n) : ptrOf (ptr n) = some n := by
  obtain ⟨hpos, hlt⟩ := Pool.node_range hn
  have hval := toNat_ptr hlt
  have hne : ptr n ≠ 0 := fun he => by
    rw [he] at hval
    exact absurd hval (Nat.ne_of_lt hpos)
  unfold ptrOf
  rw [if_neg hne, hval]

/-! ### Stores and assignments -/

section node

variable {a p n x : ℕ}

theorem linksOf_prev (hp : L.Node p) (w : Word) (m : Mem) (ha : L.Clear a) :
    linksOf (store p w m) a = Function.update (linksOf m) p { linksOf m p with prev := ptrOf w } a := by
  unfold linksOf
  rw [store_apply, store_apply, Function.update_apply]
  rcases ha p hp with rfl | hne
  · rw [if_pos rfl, if_pos rfl, if_neg (by omega)]
  · rw [if_neg (by omega), if_neg (by omega), if_neg (by omega)]

theorem linksOf_next (hp : L.Node p) (w : Word) (m : Mem) (ha : L.Clear a) :
    linksOf (store (p + 4) w m) a = Function.update (linksOf m) p { linksOf m p with next := ptrOf w } a := by
  unfold linksOf
  rw [store_apply, store_apply, Function.update_apply]
  rcases ha p hp with rfl | hne
  · rw [if_neg (by omega), if_pos rfl, if_pos rfl]
  · rw [if_neg (by omega), if_neg (by omega), if_neg (by omega)]

theorem linksOf_links (hx : L.Node x) (w1 w2 : Word) (m : Mem) (ha : L.Clear a) :
    linksOf (store (x + 4) w2 (store x w1 m)) a = Function.update (linksOf m) x ⟨ptrOf w1, ptrOf w2⟩ a := by
  rw [linksOf_next hx _ _ ha, Function.update_apply, linksOf_prev hx _ _ (Pool.node_clear hx), linksOf_prev hx _ _ ha,
    Function.update_self, Function.update_apply, Function.update_apply]
  split_ifs
  · rfl
  · rfl

/-- **`list_del` on the memory** is `list_del` on the links. -/
theorem linksOf_listDel (hp : (linksOf m x).prev = some p) (hn : (linksOf m x).next = some n) (hpn : L.Node p)
    (hnn : L.Node n) (ha : L.Clear a) : linksOf (listDel x m) a = NanoOS.listDel x (linksOf m) a := by
  have hprev : (m x).toNat = p := of_ptrOf hp
  have hnext : (m (x + 4)).toNat = n := of_ptrOf hn
  have hword : listDel x m = store n (ptr p) (store (p + 4) (ptr n) m) := by
    unfold listDel
    rw [hprev, hnext]
    dsimp only
    rw [if_pos (Nat.ne_of_gt (Pool.node_range hpn).1), if_pos (Nat.ne_of_gt (Pool.node_range hnn).1)]
  have hlinks : NanoOS.listDel x (linksOf m) =
      let m1 := Function.update (linksOf m) p { linksOf m p with next := some n }
      Function.update m1 n { m1 n with prev := some p } := by
    unfold NanoOS.listDel
    rw [hp, hn]
  have h1 : ∀ b, L.Clear b → linksOf (store (p + 4) (ptr n) m) b =
      Function.update (linksOf m) p { linksOf m p with next := some n } b := by
    intro b hb
    rw [linksOf_next hpn _ _ hb, ptrOf_ptr hnn]
  rw [hword, hlinks, linksOf_prev hnn _ _ ha, ptrOf_ptr hpn, Function.update_apply, h1 n (Pool.node_clear hnn), h1 a ha]
  exact (Function.update_apply _ _ _ _).symm

/-- **`list_add_before` on the memory** is `list_add_before` on the links. -/
theorem linksOf_listAddBefore {h : ℕ} (hp : (linksOf m h).prev = some p) (hpn : L.Node p) (hh : L.Node h)
    (hx : L.Node x) (ha : L.Clear a) :
    linksOf (listAddBefore h x m) a = NanoOS.listAddBefore h x (linksOf m) a := by
  have hprev : (m h).toNat = p := of_ptrOf hp
  have hword : listAddBefore h x m =
      store h (ptr x) (store (p + 4) (ptr x) (store (x + 4) (ptr h) (store x (ptr p) m))) := by
    unfold listAddBefore listAdd
    rw [hprev]
    dsimp only
    rw [if_pos (Nat.ne_of_gt (Pool.node_range hpn).1), if_pos (Nat.ne_of_gt (Pool.node_range hh).1)]
  have hlinks : NanoOS.listAddBefore h x (linksOf m) =
      let m1 := Function.update (linksOf m) x ⟨some p, some h⟩
      let m2 := Function.update m1 p { m1 p with next := some x }
      Function.update m2 h { m2 h with prev := some x } := by
    unfold NanoOS.listAddBefore NanoOS.listAdd
    rw [hp]
  have h1 : ∀ b, L.Clear b → linksOf (store (x + 4) (ptr h) (store x (ptr p) m)) b =
      Function.update (linksOf m) x ⟨some p, some h⟩ b := by
    intro b hb
    rw [linksOf_links hx _ _ _ hb, ptrOf_ptr hpn, ptrOf_ptr hh]
  have h2 : ∀ b, L.Clear b →
      linksOf (store (p + 4) (ptr x) (store (x + 4) (ptr h) (store x (ptr p) m))) b =
      Function.update (Function.update (linksOf m) x ⟨some p, some h⟩) p
        { Function.update (linksOf m) x ⟨some p, some h⟩ p with next := some x } b := by
    intro b hb
    rw [linksOf_next hpn _ _ hb, ptrOf_ptr hx, Function.update_apply, h1 p (Pool.node_clear hpn), h1 b hb]
    exact (Function.update_apply _ _ _ _).symm
  rw [hword, hlinks, linksOf_prev hh _ _ ha, ptrOf_ptr hx, Function.update_apply, h2 h (Pool.node_clear hh), h2 a ha]
  exact (Function.update_apply _ _ _ _).symm

end node

/-! ### Lists -/

section rings

variable {x h : ℕ}

theorem node_update {P : ℕ → Prop} (hnode : ∀ a, InRings live seq a → P a) {ys : List ℕ} (hys : ∀ y ∈ ys, P y) (a : ℕ)
    (ha : InRings live (Function.update seq h ys) a) : P a := by
  obtain ⟨k, hk, ha⟩ := ha
  rcases List.mem_cons.mp ha with rfl | ha
  · exact hnode a ⟨a, hk, List.mem_cons_self⟩
  by_cases he : k = h
  · rw [he, Function.update_self] at ha
    exact hys a ha
  · rw [Function.update_of_ne he] at ha
    exact hnode a ⟨k, hk, List.mem_cons_of_mem k ha⟩

theorem rings_listDel (hr : Rings (linksOf m) live seq) (hclear : ∀ a, InRings live seq a → L.Clear a) (hh : live h)
    (hnode : ∀ a ∈ h :: seq h, L.Node a) (hx : x ∈ seq h) :
    Rings (linksOf (listDel x m)) live (Function.update seq h ((seq h).erase x)) := by
  obtain ⟨l, r, hs⟩ := List.append_of_mem hx
  have hring := hr.ring h hh
  rw [hs] at hring hnode
  obtain ⟨hp, hn⟩ := hring.around
  have hpn : L.Node ((h :: l).getLast (by simp)) := by
    apply hnode
    exact List.mem_append_left (x :: r) (List.getLast_mem (by simp))
  have hnn : L.Node (r.headD h) := by
    apply hnode
    cases r with
    | nil => exact List.mem_cons_self
    | cons b r => simp
  refine (Rings.listDel hr hh hx).congr fun a ha => linksOf_listDel hp hn hpn hnn ?_
  exact node_update hclear (fun y hy => hclear y ⟨h, hh, List.mem_cons_of_mem h (List.mem_of_mem_erase hy)⟩) a ha

theorem rings_listAddBefore (hr : Rings (linksOf m) live seq) (hclear : ∀ a, InRings live seq a → L.Clear a)
    (hh : live h) (hnode : ∀ a ∈ h :: seq h, L.Node a) (hxn : L.Node x) (hx : ¬ InRings live seq x) :
    Rings (linksOf (listAddBefore h x m)) live (Function.update seq h (seq h ++ [x])) := by
  have hp := (hr.ring h hh).prev_head
  have hpn : L.Node ((h :: seq h).getLast (by simp)) := hnode _ (List.getLast_mem (by simp))
  have hhn : L.Node h := hnode h List.mem_cons_self
  refine (Rings.listAddBefore hr hh hx).congr fun a ha => linksOf_listAddBefore hp hpn hhn hxn ?_
  refine node_update hclear (fun y hy => ?_) a ha
  rcases List.mem_append.mp hy with hy | hy
  · exact hclear y ⟨h, hh, List.mem_cons_of_mem h hy⟩
  · exact List.mem_singleton.mp hy ▸ Pool.node_clear hxn

theorem rings_words {m' : Mem} (hr : Rings (linksOf m) live seq)
    (hsame : ∀ a, InRings live seq a → m' a = m a ∧ m' (a + 4) = m (a + 4)) : Rings (linksOf m') live seq := by
  refine hr.congr fun a ha => ?_
  unfold linksOf
  rw [(hsame a ha).1, (hsame a ha).2]

end rings

namespace Lists

theorem node_free (h : Lists L m live seq) : ∀ a ∈ L.free :: seq L.free, L.Node a := by
  intro a ha
  rcases List.mem_cons.mp ha with he | ha
  · exact Or.inl he
  · exact Or.inr (Or.inr (h.pcbs a (Or.inl ha)))

theorem node_block (h : Lists L m live seq) : ∀ a ∈ L.block :: seq L.block, L.Node a := by
  intro a ha
  rcases List.mem_cons.mp ha with he | ha
  · exact Or.inr (Or.inl he)
  · exact Or.inr (Or.inr (h.pcbs a (Or.inr ha)))

theorem not_inRings (h : Lists L m live seq) (hsel : seq L.free = L.pcb i :: rest) :
    ¬ InRings live (Function.update seq L.free rest) (L.pcb i) := by
  rintro ⟨k, hk, hm⟩
  have hself : L.pcb i ∈ L.free :: seq L.free := by
    rw [hsel]
    exact List.mem_cons_of_mem _ List.mem_cons_self
  by_cases he : k = L.free
  · have hnd := (h.rings.ring L.free h.free).nodup
    rw [hsel] at hnd
    obtain ⟨hhead, hnd⟩ := List.nodup_cons.mp hnd
    rw [he, Function.update_self] at hm
    rcases List.mem_cons.mp hm with hm | hm
    · exact hhead (hm ▸ List.mem_cons_self)
    · exact (List.nodup_cons.mp hnd).1 hm
  · rw [Function.update_of_ne he] at hm
    exact h.rings.not_mem_other h.free hk he hself hm

end Lists

/-- The nodes of the other rings are heads and PCBs, too, or they are at least
eight bytes from all of these and outside the PCBs that are free. -/
def Apart (L : Pool) (live : ℕ → Prop) (seq : ℕ → List ℕ) : Prop := ∀ a, InRings live seq a →
  L.Clear a ∧ (L.Node a ∨ ∀ p ∈ seq L.free, a + 8 ≤ p ∨ p + 16384 ≤ a)

/-- No node that is left is inside the PCB that has been taken, behind its links. -/
theorem Apart.outside (hap : Apart L live seq) (hi : i < 2048) (hsel : seq L.free = L.pcb i :: rest) {a : ℕ}
    (ha : InRings live seq a) : (a < L.pcb i + 8 ∨ L.pcb i + 16384 ≤ a) ∧
      (a + 4 < L.pcb i + 8 ∨ L.pcb i + 16384 ≤ a + 4) := by
  rcases (hap a ha).2 with hn | hout
  · have hlink : ∀ b, L.Link b → b < L.pcb i + 8 ∨ L.pcb i + 16384 ≤ b := by
      intro b hb
      by_contra hin
      exact Pool.not_link hi (by omega) (by omega) hb
    exact ⟨hlink a ⟨a, hn, Or.inl rfl⟩, hlink (a + 4) ⟨a, hn, Or.inr rfl⟩⟩
  · have hfar := hout (L.pcb i) (hsel ▸ List.mem_cons_self)
    omega

theorem inRings_moved (hb : live L.block) (hf : live L.free) (hsel : seq L.free = L.pcb i :: rest) {a : ℕ}
    (ha : InRings live (Function.update (Function.update seq L.free rest) L.block (seq L.block ++ [L.pcb i])) a) :
    InRings live seq a := by
  have hself : ∀ y ∈ L.pcb i :: rest, InRings live seq y := fun y hy =>
    ⟨L.free, hf, List.mem_cons_of_mem _ (hsel ▸ hy)⟩
  refine node_update (P := InRings live seq) (node_update (P := InRings live seq) (fun _ h => h)
    fun y hy => hself y (List.mem_cons_of_mem _ hy)) (fun y hy => ?_) a ha
  rcases List.mem_append.mp hy with hy | hy
  · exact ⟨L.block, hb, List.mem_cons_of_mem _ hy⟩
  · exact hself y (List.mem_singleton.mp hy ▸ List.mem_cons_self)

/-- **`create_kthread` keeps the lists in order**: the first PCB of `free` is the
last one of `block` afterwards, and every other ring is as it was. -/
theorem createKthread_lists (h : Lists L m live seq) (hap : Apart L live seq) (hsel : seq L.free = L.pcb i :: rest)
    (hsp : ∀ k ≤ 16, L.Elsewhere i (sp + 4 * k)) (segs : Segments) (kcr3 : Word) :
    ∃ m', createKthread L segs kcr3 sp m = some (L.pcb i, m') ∧
      Lists L m' live (Function.update (Function.update seq L.free rest) L.block (seq L.block ++ [L.pcb i])) ∧
      Apart L live (Function.update (Function.update seq L.free rest) L.block (seq L.block ++ [L.pcb i])) := by
  obtain ⟨m2, m4, hcreate, -, -, -, hkeep⟩ := createKthread_eq h hsel hsp segs kcr3
  have hi := h.selected_lt hsel
  have hself : L.Node (L.pcb i) := Or.inr (Or.inr ⟨i, hi, rfl⟩)
  have hheads : L.block ≠ L.free := by
    have hdisj := L.free_block
    omega
  have hmoved : ∀ a, _ → InRings live seq a := fun a => inRings_moved h.block h.free hsel
  have hdel : Rings (linksOf (listDel (L.pcb i) m)) live (Function.update seq L.free rest) := by
    have hrings := rings_listDel h.rings (fun a ha => (hap a ha).1) h.free h.node_free (hsel ▸ List.mem_cons_self)
    rw [hsel, List.erase_cons_head] at hrings
    exact hrings
  have hleft : ∀ a, InRings live (Function.update seq L.free rest) a → InRings live seq a :=
    node_update (P := InRings live seq) (fun _ ha => ha) fun y hy =>
      ⟨L.free, h.free, List.mem_cons_of_mem _ (hsel ▸ List.mem_cons_of_mem _ hy)⟩
  have hrings4 : Rings (linksOf m4) live (Function.update seq L.free rest) := by
    refine rings_words hdel fun a ha => ?_
    have hout := hap.outside hi hsel (hleft a ha)
    exact ⟨hkeep a hout.1, hkeep (a + 4) hout.2⟩
  have hblock : Function.update seq L.free rest L.block = seq L.block := Function.update_of_ne hheads ..
  have hrings5 := rings_listAddBefore hrings4 (fun a ha => (hap a (hleft a ha)).1) h.block (hblock ▸ h.node_block) hself
    (h.not_inRings hsel)
  rw [hblock] at hrings5
  refine ⟨_, hcreate, ⟨?_, h.free, h.block, fun a ha => ?_⟩, fun a ha => ⟨(hap a (hmoved a ha)).1, ?_⟩⟩
  · refine rings_words hrings5 fun a ha => ?_
    have hout := hap.outside hi hsel (hmoved a ha)
    exact ⟨initHeader_frame _ _ _ _ (by omega), initHeader_frame _ _ _ _ (by omega)⟩
  · rw [Function.update_of_ne hheads.symm, Function.update_self, Function.update_self] at ha
    rcases ha with ha | ha
    · exact h.pcbs a (Or.inl (hsel ▸ List.mem_cons_of_mem _ ha))
    · rcases List.mem_append.mp ha with ha | ha
      · exact h.pcbs a (Or.inr ha)
      · exact ⟨i, hi, List.mem_singleton.mp ha⟩
  · rw [Function.update_of_ne hheads.symm, Function.update_self]
    exact (hap a (hmoved a ha)).2.imp_right fun hout p hp => hout p (hsel ▸ List.mem_cons_of_mem _ hp)

/-! ### One thread after the other -/

/-- Threads with the PCBs `ps` are created, one after the other; other code leaves
the links of the nodes of the rings alone. The stack of a caller is outside the
PCB that it gets. -/
inductive Creates (L : Pool) (node : ℕ → Prop) (m : Mem) : List ℕ → Mem → Prop
  | start : Creates L node m [] m
  | other {ps : List ℕ} {m1 m2 : Mem} (h : Creates L node m ps m1)
      (hsame : ∀ a, node a → m2 a = m1 a ∧ m2 (a + 4) = m1 (a + 4)) : Creates L node m ps m2
  | create {ps : List ℕ} {m1 m2 : Mem} {segs : Segments} {kcr3 : Word} {sp p : ℕ} (h : Creates L node m ps m1)
      (hcreate : createKthread L segs kcr3 sp m1 = some (p, m2))
      (hsp : ∀ i, p = L.pcb i → ∀ k ≤ 16, L.Elsewhere i (sp + 4 * k)) : Creates L node m (ps ++ [p]) m2

theorem Lists.created {segs : Segments} {kcr3 : Word} {p : ℕ} {m' : Mem} (h : Lists L m live seq)
    (hcreate : createKthread L segs kcr3 sp m = some (p, m')) :
    ∃ i rest, p = L.pcb i ∧ seq L.free = L.pcb i :: rest := by
  have hnext := of_ptrOf (h.rings.ring L.free h.free).next_head
  unfold createKthread at hcreate
  split_ifs at hcreate with hempty
  have hp : (m (L.free + 4)).toNat = p := congrArg Prod.fst (Option.some.inj hcreate)
  cases hseq : seq L.free with
  | nil =>
    rw [hseq] at hnext
    exact absurd hnext hempty
  | cons q rest =>
    obtain ⟨i, -, hq⟩ := h.pcbs q (Or.inl (hseq ▸ List.mem_cons_self))
    rw [hseq] at hnext
    refine ⟨i, rest, ?_, by rw [hq]⟩
    calc p = (m (L.free + 4)).toNat := hp.symm
      _ = q := hnext
      _ = L.pcb i := hq

/-- **Threads get the PCBs in the order of `free`**, each at most once, and come to
`block` in this order; every other ring is as it was. -/
theorem creates_in_order (h : Lists L m live seq) (hap : Apart L live seq) {ps : List ℕ} {m' : Mem}
    (hc : Creates L (InRings live seq) m ps m') :
    ps.Nodup ∧ ∃ rest, seq L.free = ps ++ rest ∧
      Lists L m' live (Function.update (Function.update seq L.free rest) L.block (seq L.block ++ ps)) := by
  have hheads : L.block ≠ L.free := by
    have hdisj := L.free_block
    omega
  suffices hrun : ∃ rest, seq L.free = ps ++ rest ∧
      Lists L m' live (Function.update (Function.update seq L.free rest) L.block (seq L.block ++ ps)) ∧
      Apart L live (Function.update (Function.update seq L.free rest) L.block (seq L.block ++ ps)) ∧
      ∀ a, InRings live (Function.update (Function.update seq L.free rest) L.block (seq L.block ++ ps)) a →
        InRings live seq a by
    obtain ⟨rest, hfree, hlists, -⟩ := hrun
    have hnd := (List.nodup_cons.mp (h.rings.ring L.free h.free).nodup).2
    rw [hfree] at hnd
    exact ⟨(List.nodup_append.mp hnd).1, rest, hfree, hlists⟩
  induction hc with
  | start =>
    refine ⟨seq L.free, rfl, ?_⟩
    rw [Function.update_eq_self, List.append_nil, Function.update_eq_self]
    exact ⟨h, hap, fun _ ha => ha⟩
  | other _ hsame ih =>
    obtain ⟨rest, hfree, hlists, hap', hsub⟩ := ih
    exact ⟨rest, hfree, ⟨rings_words hlists.rings fun a ha => hsame a (hsub a ha), hlists.free, hlists.block,
      hlists.pcbs⟩, hap', hsub⟩
  | @create ps m1 m2 segs kcr3 sp p _ hcreate hsp ih =>
    obtain ⟨rest, hfree, hlists, hap', hsub⟩ := ih
    obtain ⟨i, rest', rfl, hsel⟩ := hlists.created hcreate
    obtain ⟨m3, hcreate', hlists', hap''⟩ := createKthread_lists hlists hap' hsel (hsp i rfl) segs kcr3
    obtain rfl : m2 = m3 := congrArg Prod.snd (Option.some.inj (hcreate.symm.trans hcreate'))
    have hrest : rest = L.pcb i :: rest' := by
      rw [Function.update_of_ne hheads.symm, Function.update_self] at hsel
      exact hsel
    have hsub' : ∀ a, _ → InRings live seq a := fun a ha => hsub a (inRings_moved hlists.block hlists.free hsel ha)
    refine ⟨rest', by rw [hfree, hrest, List.append_assoc]; rfl, ?_⟩
    have hseq : Function.update (Function.update (Function.update (Function.update seq L.free rest) L.block
        (seq L.block ++ ps)) L.free rest') L.block ((seq L.block ++ ps) ++ [L.pcb i]) =
        Function.update (Function.update seq L.free rest') L.block (seq L.block ++ (ps ++ [L.pcb i])) := by
      rw [Function.update_comm hheads, Function.update_idem, Function.update_idem, List.append_assoc]
    rw [Function.update_self, hseq] at hlists' hap'' hsub'
    exact ⟨hlists', hap'', hsub'⟩

/-- PCBs 1 and 2 are free, and PCB 3 is in another list, whose head is at 32800. -/
def twoFree : Mem := fun a =>
  if a = 32768 then 1081344 else if a = 32772 then 1064960
  else if a = 1064960 then 32768 else if a = 1064964 then 1081344
  else if a = 1081344 then 1064960 else if a = 1081348 then 32768
  else if a = 32784 ∨ a = 32788 then 32784
  else if a = 32800 ∨ a = 32804 then 1097728
  else if a = 1097728 ∨ a = 1097732 then 32800 else ptr a

/-- The lists, with the PCBs `free` and `block` in the first two. -/
def threeLists (free block : List ℕ) : ℕ → List ℕ := fun a =>
  if a = 32768 then free else if a = 32784 then block else if a = 32800 then [1097728] else []

theorem twoFree_lists : Lists lowPool twoFree (fun a => a = 32768 ∨ a = 32784 ∨ a = 32800)
    (threeLists [1064960, 1081344] []) where
  rings := by
    constructor
    · rintro h (rfl | rfl | rfl)
      · exact ⟨.cons_cons ⟨by decide, by decide⟩ (.cons_cons ⟨by decide, by decide⟩
          (.cons_cons ⟨by decide, by decide⟩ (.singleton _))), by decide⟩
      · exact ⟨.cons_cons ⟨by decide, by decide⟩ (.singleton _), by decide⟩
      · exact ⟨.cons_cons ⟨by decide, by decide⟩ (.cons_cons ⟨by decide, by decide⟩ (.singleton _)), by decide⟩
    · rintro h h' (rfl | rfl | rfl) (rfl | rfl | rfl) hne
      · exact absurd rfl hne
      · simp [threeLists]
      · simp [threeLists]
      · simp [threeLists]
      · exact absurd rfl hne
      · simp [threeLists]
      · simp [threeLists]
      · simp [threeLists]
      · exact absurd rfl hne
  free := Or.inl rfl
  block := Or.inr (Or.inl rfl)
  pcbs := by
    rintro a (ha | ha)
    · rcases List.mem_cons.mp ha with rfl | ha
      · exact ⟨1, by decide, rfl⟩
      · exact ⟨2, by decide, List.mem_singleton.mp ha⟩
    · exact absurd ha List.not_mem_nil

/-- The head at 32800 is behind `block` and below the pool; all other nodes are
heads and PCBs. -/
theorem twoFree_apart : Apart lowPool (fun a => a = 32768 ∨ a = 32784 ∨ a = 32800)
    (threeLists [1064960, 1081344] []) := by
  have hother : lowPool.Clear 32800 := by
    intro n hn
    rcases Pool.node_cases hn with hn | hn | ⟨j, -, hn⟩
    · change n = 32768 at hn
      omega
    · change n = 32784 at hn
      omega
    · change n = 1048576 + 16384 * j at hn
      omega
  have hpcb : ∀ j < 2048, lowPool.Node (1048576 + 16384 * j) := fun j hj => Or.inr (Or.inr ⟨j, hj, rfl⟩)
  have hnode : ∀ a, lowPool.Node a → lowPool.Clear a ∧ (lowPool.Node a ∨
      ∀ p ∈ threeLists [1064960, 1081344] [] lowPool.free, a + 8 ≤ p ∨ p + 16384 ≤ a) :=
    fun a ha => ⟨Pool.node_clear ha, Or.inl ha⟩
  rintro a ⟨k, rfl | rfl | rfl, ha⟩
  · rcases List.mem_cons.mp ha with rfl | ha
    · exact hnode _ (Or.inl rfl)
    · rcases List.mem_cons.mp ha with rfl | ha
      · exact hnode _ (hpcb 1 (by decide))
      · obtain rfl := List.mem_singleton.mp ha
        exact hnode _ (hpcb 2 (by decide))
  · obtain rfl := List.mem_singleton.mp ha
    exact hnode _ (Or.inr (Or.inl rfl))
  · rcases List.mem_cons.mp ha with rfl | ha
    · refine ⟨hother, Or.inr fun p hp => ?_⟩
      rcases List.mem_cons.mp hp with rfl | hp
      · decide
      · obtain rfl := List.mem_singleton.mp hp
        decide
    · obtain rfl := List.mem_singleton.mp ha
      exact hnode _ (hpcb 3 (by decide))

/-- Two threads are created by a caller whose stack is below all this. -/
theorem creates_in_order_low : ∃ m', Creates lowPool
      (InRings (fun a => a = 32768 ∨ a = 32784 ∨ a = 32800) (threeLists [1064960, 1081344] [])) twoFree
      [1064960, 1081344] m' ∧
    ∃ seq, Lists lowPool m' (fun a => a = 32768 ∨ a = 32784 ∨ a = 32800) seq ∧ seq 32768 = [] ∧
      seq 32784 = [1064960, 1081344] ∧ seq 32800 = [1097728] := by
  have hpcb : ∀ j, lowPool.pcb j = 1048576 + 16384 * j := fun _ => rfl
  have hstack : ∀ i, 1 ≤ i → ∀ k ≤ 16, lowPool.Elsewhere i (16384 + 4 * k) := by
    intro i hi k hk
    refine ⟨?_, Or.inl (by rw [hpcb]; omega)⟩
    rintro ⟨n, hn, ha⟩
    rcases Pool.node_cases hn with hn | hn | ⟨j, -, hn⟩
    · change n = 32768 at hn
      omega
    · change n = 32784 at hn
      omega
    · change n = 1048576 + 16384 * j at hn
      omega
  obtain ⟨m1, hcreate1, hlists1, hap1⟩ := @createKthread_lists lowPool twoFree _ _ 1 16384 [1081344] twoFree_lists
    twoFree_apart rfl (hstack 1 (by decide)) kernelSegments 4096
  obtain ⟨m2, hcreate2, -⟩ := @createKthread_lists lowPool m1 _ _ 2 16384 [] hlists1 hap1 rfl (hstack 2 (by decide))
    kernelSegments 4096
  have hc : Creates lowPool (InRings (fun a => a = 32768 ∨ a = 32784 ∨ a = 32800)
      (threeLists [1064960, 1081344] [])) twoFree ([] ++ [1064960] ++ [1081344]) m2 := by
    refine .create (.create .start hcreate1 fun i hi => hstack i ?_) hcreate2 fun i hi => hstack i ?_
    · rw [hpcb] at hi
      omega
    · rw [hpcb] at hi
      omega
  obtain ⟨-, rest, hfree, hlists⟩ := creates_in_order twoFree_lists twoFree_apart hc
  obtain rfl : rest = [] := List.self_eq_append_right.mp (hfree : [1064960, 1081344] = [1064960, 1081344] ++ rest)
  exact ⟨m2, hc, _, hlists, rfl, rfl, rfl⟩

end Kthread
end NanoOS
