/-
# Circular doubly linked lists in a heap of links

A heap gives every node a `prev` and a `next` pointer, either of which may be
null. `Ring m h xs`: from the head `h`, following `next`, one meets the nodes
`xs` in order and is back at `h`; every `prev` points the other way, and no
node is met twice. `Rings m live seq` is a family of such rings with pairwise
disjoint nodes, one for each live head.

What a list operation does to a family is said through the pointers it
changes: `Insert` for a node that comes in between two neighbours, `Remove`
for a node that leaves. A program's own operations are shown to be one of
these; what they do to the sequences then follows (`Rings.insert_last`,
`Rings.insert_first`, `Rings.remove`).

Key definitions: `Heap`, `Ring`, `Rings`, `Insert`, `Remove`.
Key theorems: `Ring.of_insert`, `Ring.of_remove`, `Rings.insert_last`,
`Rings.remove`, `Rings.add_empty`.
-/
import Mathlib.Data.List.Chain
import Mathlib.Data.List.Nodup
import Mathlib.Logic.Function.Basic

namespace Ringlist

/-- The two pointers of a list node; `none` is the null pointer. -/
@[ext]
structure Links (α : Type*) where
  prev : Option α
  next : Option α
  deriving DecidableEq

/-- What every node points at. -/
abbrev Heap (α : Type*) := α → Links α

variable {α : Type*}

/-- `b` follows `a`, and both know it. -/
def Linked (m : Heap α) (a b : α) : Prop := (m a).next = some b ∧ (m b).prev = some a

/-- The circular list of head `h` holds the nodes `xs`, in this order. -/
structure Ring (m : Heap α) (h : α) (xs : List α) : Prop where
  chain : List.IsChain (Linked m) (h :: (xs ++ [h]))
  nodup : (h :: xs).Nodup

/-! ### One ring -/

/-- A chain reads the `next` of all its nodes but the last and the `prev` of
all but the first. -/
theorem chain_congr {m m' : Heap α} : ∀ {l : List α}, List.IsChain (Linked m) l →
    (∀ a ∈ l.dropLast, (m' a).next = (m a).next) → (∀ b ∈ l.tail, (m' b).prev = (m b).prev) →
    List.IsChain (Linked m') l
  | [], _, _, _ => .nil
  | [a], _, _, _ => .singleton a
  | a :: b :: l, hc, hn, hp => by
    rw [List.isChain_cons_cons] at hc ⊢
    refine ⟨⟨?_, ?_⟩, chain_congr hc.2 (fun x hx => hn x ?_) (fun x hx => hp x ?_)⟩
    · rw [hn a (by simp), hc.1.1]
    · rw [hp b (by simp), hc.1.2]
    · simp only [List.dropLast_cons_cons, List.mem_cons]; exact Or.inr hx
    · exact List.mem_of_mem_tail hx

theorem Ring.congr {m m' : Heap α} {h : α} {xs : List α} (hr : Ring m h xs)
    (heq : ∀ a ∈ h :: xs, m' a = m a) : Ring m' h xs := by
  refine ⟨chain_congr hr.chain (fun a ha => ?_) (fun b hb => ?_), hr.nodup⟩
  · have : a ∈ h :: xs := by
      rw [← List.cons_append, List.dropLast_concat] at ha
      exact ha
    rw [heq a this]
  · have : b ∈ h :: xs := by
      simp only [List.tail_cons, List.mem_append, List.mem_singleton] at hb
      simp only [List.mem_cons]
      exact hb.symm
    rw [heq b this]

theorem Ring.not_mem {m : Heap α} {h : α} {xs : List α} (hr : Ring m h xs) : h ∉ xs :=
  (List.nodup_cons.mp hr.nodup).1

theorem next_of_chain {m : Heap α} {h x : α} : ∀ {xs : List α}, List.IsChain (Linked m) (x :: xs ++ [h]) →
    (m x).next = some (xs.headD h)
  | [], hc => (List.isChain_cons_cons.mp hc).1.1
  | _ :: _, hc => (List.isChain_cons_cons.mp hc).1.1

theorem Ring.next_head {m : Heap α} {h : α} {xs : List α} (hr : Ring m h xs) :
    (m h).next = some (xs.headD h) :=
  next_of_chain hr.chain

theorem Ring.prev_head {m : Heap α} {h : α} {xs : List α} (hr : Ring m h xs) :
    (m h).prev = some ((h :: xs).getLast (by simp)) := by
  have hc := hr.chain
  rw [← List.cons_append] at hc
  have := hc.rel_getLast_head_of_append (by simp) (by simp)
  simpa using this.2

/-- Around a node of the ring: its neighbours, and that they are what the
links say. -/
theorem Ring.around {m : Heap α} {h x : α} {l r : List α} (hr : Ring m h (l ++ x :: r)) :
    (m x).prev = some ((h :: l).getLast (by simp)) ∧ (m x).next = some (r.headD h) := by
  have hc := hr.chain
  have h1 : h :: (l ++ x :: r ++ [h]) = (h :: l) ++ (x :: (r ++ [h])) := by simp
  rw [h1] at hc
  have h2 := hc.rel_getLast_head_of_append (by simp) (by simp)
  have h3 := hc.right_of_append
  exact ⟨h2.2, next_of_chain h3⟩

theorem Ring.next_eq_self_iff {m : Heap α} {h : α} {xs : List α} (hr : Ring m h xs) :
    (m h).next = some h ↔ xs = [] := by
  rw [hr.next_head]
  cases xs with
  | nil => simp
  | cons x xs =>
    have := hr.not_mem
    simp only [List.headD_cons, Option.some.injEq, reduceCtorEq, iff_false]
    rintro rfl
    simp at this

theorem Ring.links_eq {m m' : Heap α} {h : α} {xs : List α} (hr : Ring m h xs) (hr' : Ring m' h xs) :
    ∀ y ∈ h :: xs, m' y = m y := by
  intro y hy
  rcases List.mem_cons.mp hy with rfl | hy
  · have hprev : (m' y).prev = (m y).prev := hr'.prev_head.trans hr.prev_head.symm
    exact Links.ext hprev (hr'.next_head.trans hr.next_head.symm)
  · obtain ⟨l, r, rfl⟩ := List.append_of_mem hy
    obtain ⟨hp, hn⟩ := hr.around
    obtain ⟨hp', hn'⟩ := hr'.around
    exact Links.ext (hp'.trans hp.symm) (hn'.trans hn.symm)

/-- A change at a cut of the ring: when only the `next` of the last node
before the cut and the `prev` of the first one after it change, the two
halves are chains as before. -/
theorem chain_halves {m m' : Heap α} {h : α} {l r : List α} (hnd : (h :: (l ++ r)).Nodup)
    (hl : List.IsChain (Linked m) (h :: l)) (hr : List.IsChain (Linked m) (r ++ [h]))
    (hn : ∀ a ∈ h :: (l ++ r), a ≠ (h :: l).getLast (by simp) → (m' a).next = (m a).next)
    (hp : ∀ b ∈ h :: (l ++ r), b ≠ r.headD h → (m' b).prev = (m b).prev) :
    List.IsChain (Linked m') (h :: l) ∧ List.IsChain (Linked m') (r ++ [h]) := by
  have hnd2 : ((h :: l) ++ r).Nodup := hnd
  obtain ⟨hdl, hdr, hdis⟩ := List.nodup_append.mp hnd2
  constructor
  · refine chain_congr hl (fun a ha => hn a ?_ ?_) (fun b hb => hp b ?_ ?_)
    · exact List.mem_append_left r (List.dropLast_subset _ ha)
    · rintro rfl
      rw [← List.dropLast_append_getLast (l := h :: l) (by simp)] at hdl
      exact (List.nodup_append.mp hdl).2.2 _ ha _ (List.mem_singleton.mpr rfl) rfl
    · exact List.mem_append_left r (List.mem_of_mem_tail hb)
    · rw [List.tail_cons] at hb
      intro e
      cases r with
      | nil =>
        rw [List.headD_nil] at e
        exact (List.nodup_cons.mp hnd).1 (List.mem_append_left _ (e ▸ hb))
      | cons y r => exact hdis b (List.mem_cons_of_mem _ hb) y (by simp) e
  · refine chain_congr hr (fun a ha => hn a ?_ ?_) (fun b hb => hp b ?_ ?_)
    · rw [List.dropLast_concat] at ha
      exact List.mem_append_right (h :: l) ha
    · rw [List.dropLast_concat] at ha
      intro e
      exact hdis a (e ▸ List.getLast_mem _) a ha rfl
    · have hb := List.mem_of_mem_tail hb
      simp only [List.mem_append, List.mem_cons] at hb ⊢
      tauto
    · intro e
      cases r with
      | nil => simp at hb
      | cons y r =>
        simp only [List.headD_cons, List.cons_append, List.tail_cons, List.mem_append,
          List.mem_singleton] at e hb
        subst e
        rcases hb with hb | hb
        · exact (List.nodup_cons.mp hdr).1 hb
        · exact (List.nodup_cons.mp hnd).1 (hb ▸ List.mem_append_right _ (by simp))

theorem Ring.join {m : Heap α} {h : α} {l r : List α} (hnd : (h :: (l ++ r)).Nodup)
    (hl : List.IsChain (Linked m) (h :: l)) (hr : List.IsChain (Linked m) (r ++ [h]))
    (hlr : Linked m ((h :: l).getLast (by simp)) (r.headD h)) : Ring m h (l ++ r) := by
  refine ⟨?_, hnd⟩
  have hs : h :: (l ++ r ++ [h]) = (h :: l) ++ (r ++ [h]) := by simp
  rw [hs]
  refine hl.append hr fun y hy z hz => ?_
  rw [List.getLast?_eq_getLast_of_ne_nil (by simp), Option.mem_def, Option.some.injEq] at hy
  have hz : r.headD h = z := by cases r <;> simpa using hz
  rw [← hy, ← hz]
  exact hlr

/-! ### The two changes -/

variable [DecidableEq α]

/-- `m'` is `m` with `x` linked in between `p` and `n`. -/
structure Insert (m m' : Heap α) (p n x : α) : Prop where
  next : ∀ a, (m' a).next = if a = p then some x else if a = x then some n else (m a).next
  prev : ∀ a, (m' a).prev = if a = n then some x else if a = x then some p else (m a).prev

/-- `m'` is `m` with `p` and `n` linked to each other. -/
structure Remove (m m' : Heap α) (p n : α) : Prop where
  next : ∀ a, (m' a).next = if a = p then some n else (m a).next
  prev : ∀ a, (m' a).prev = if a = n then some p else (m a).prev

theorem Insert.frame {m m' : Heap α} {p n x a : α} (hi : Insert m m' p n x) (h1 : a ≠ p) (h2 : a ≠ n)
    (h3 : a ≠ x) : m' a = m a := by
  have e1 := hi.next a
  have e2 := hi.prev a
  simp only [h1, h2, h3, if_false] at e1 e2
  exact Links.ext e2 e1

theorem Remove.frame {m m' : Heap α} {p n a : α} (hi : Remove m m' p n) (h1 : a ≠ p) (h2 : a ≠ n) :
    m' a = m a := by
  have e1 := hi.next a
  have e2 := hi.prev a
  simp only [h1, h2, if_false] at e1 e2
  exact Links.ext e2 e1

/-- Linking a new node `x` in after `l`. -/
theorem Ring.of_insert {m m' : Heap α} {h x : α} {l r : List α} (hr : Ring m h (l ++ r))
    (hx : x ∉ h :: (l ++ r)) (hi : Insert m m' ((h :: l).getLast (by simp)) (r.headD h) x) :
    Ring m' h (l ++ x :: r) := by
  have hsplit : h :: (l ++ r ++ [h]) = (h :: l) ++ (r ++ [h]) := by simp
  have hc := hr.chain
  rw [hsplit] at hc
  have hne : ∀ a ∈ h :: (l ++ r), a ≠ x := fun a ha e => hx (e ▸ ha)
  obtain ⟨hleft, hright⟩ := chain_halves hr.nodup hc.left_of_append hc.right_of_append
    (fun a ha hap => by rw [hi.next, if_neg hap, if_neg (hne a ha)])
    (fun b hb hbn => by rw [hi.prev, if_neg hbn, if_neg (hne b hb)])
  have hpx : x ≠ (h :: l).getLast (by simp) := by
    intro e
    have hm : x ∈ h :: l := e ▸ List.getLast_mem _
    exact hx (List.mem_append_left r hm)
  have hnx : x ≠ r.headD h := by
    intro e
    apply hx
    rw [e]
    cases r <;> simp
  have hperm : List.Perm (h :: (l ++ x :: r)) (x :: h :: (l ++ r)) :=
    (List.Perm.cons h List.perm_middle).trans (List.Perm.swap x h _)
  refine Ring.join (hperm.nodup_iff.mpr (List.nodup_cons.mpr ⟨hx, hr.nodup⟩)) hleft ?_ ?_
  · rw [List.cons_append]
    refine List.isChain_cons.mpr ⟨fun y hy => ?_, hright⟩
    have hy : r.headD h = y := by cases r <;> simpa using hy
    rw [← hy]
    exact ⟨by rw [hi.next, if_neg hpx, if_pos rfl], by rw [hi.prev, if_pos rfl]⟩
  · exact ⟨by rw [hi.next, if_pos rfl]; rfl, by rw [List.headD_cons, hi.prev, if_neg hnx, if_pos rfl]⟩

/-- Linking the neighbours of `x` to each other. -/
theorem Ring.of_remove {m m' : Heap α} {h x : α} {l r : List α} (hr : Ring m h (l ++ x :: r))
    (hi : Remove m m' ((h :: l).getLast (by simp)) (r.headD h)) : Ring m' h (l ++ r) := by
  have hperm : List.Perm (h :: (l ++ x :: r)) (x :: h :: (l ++ r)) :=
    (List.Perm.cons h List.perm_middle).trans (List.Perm.swap x h _)
  have hnd : (h :: (l ++ r)).Nodup := (List.nodup_cons.mp (hperm.nodup_iff.mp hr.nodup)).2
  have hsplit : h :: (l ++ x :: r ++ [h]) = (h :: l) ++ (x :: (r ++ [h])) := by simp
  have hc := hr.chain
  rw [hsplit] at hc
  obtain ⟨hleft, hright⟩ := chain_halves hnd hc.left_of_append hc.right_of_append.tail
    (fun a _ hap => by rw [hi.next, if_neg hap]) (fun b _ hbn => by rw [hi.prev, if_neg hbn])
  exact Ring.join hnd hleft hright ⟨by rw [hi.next, if_pos rfl], by rw [hi.prev, if_pos rfl]⟩

/-! ### A family of rings -/

/-- For every live head a ring, and no node in two of them. -/
structure Rings (m : Heap α) (live : α → Prop) (seq : α → List α) : Prop where
  ring : ∀ h, live h → Ring m h (seq h)
  disj : ∀ h h', live h → live h' → h ≠ h' → List.Disjoint (h :: seq h) (h' :: seq h')

/-- `x` is a node of the family. -/
def InRings (live : α → Prop) (seq : α → List α) (x : α) : Prop := ∃ h, live h ∧ x ∈ h :: seq h

section family

variable {m m' : Heap α} {live : α → Prop} {seq : α → List α} {h x : α}

omit [DecidableEq α] in
theorem Rings.not_mem_other (hr : Rings m live seq) (hh : live h) {h' : α} (hh' : live h') (hne : h' ≠ h)
    (hx : x ∈ h :: seq h) : x ∉ h' :: seq h' :=
  fun hx' => hr.disj h' h hh' hh hne hx' hx

omit [DecidableEq α] in
theorem Rings.not_mem_seq (hr : Rings m live seq) (hh : live h) (hx : x ∈ seq h) {h' : α} (hh' : live h')
    (hne : h' ≠ h) : x ∉ seq h' :=
  fun hm => hr.not_mem_other hh hh' hne (List.mem_cons_of_mem _ hx) (List.mem_cons_of_mem _ hm)

omit [DecidableEq α] in
theorem Rings.links_eq {live' : α → Prop} {seq' : α → List α} (hr : Rings m live seq) (hr' : Rings m' live' seq')
    (hh : live h) (hh' : live' h) (heq : seq' h = seq h) : ∀ y ∈ h :: seq h, m' y = m y :=
  (hr.ring h hh).links_eq (heq ▸ hr'.ring h hh')

/-- A change of the ring of `h` alone: the others see none of the nodes it
touches. -/
theorem Rings.update (hr : Rings m live seq) {ys : List α} (hh : live h) (hring : Ring m' h ys)
    (hsub : ∀ y ∈ ys, y ∈ h :: seq h ∨ ¬ InRings live seq y)
    (hframe : ∀ a, a ∉ h :: seq h → InRings live seq a → m' a = m a) :
    Rings m' live (Function.update seq h ys) := by
  have hnew : ∀ h', live h' → h' ≠ h → List.Disjoint (h' :: seq h') (h :: ys) := by
    intro h' hh' hne z hz hz'
    have hz0 : z ∉ h :: seq h := fun hm => hr.not_mem_other hh hh' hne hm hz
    rcases List.mem_cons.mp hz' with rfl | hz'
    · exact hz0 List.mem_cons_self
    · rcases hsub z hz' with h1 | h1
      · exact hz0 h1
      · exact h1 ⟨h', hh', hz⟩
  refine ⟨fun h' hh' => ?_, fun h1 h2 hl1 hl2 hne => ?_⟩
  · by_cases he : h' = h
    · subst he; rw [Function.update_self]; exact hring
    · rw [Function.update_of_ne he]
      refine (hr.ring h' hh').congr fun a ha => hframe a ?_ ⟨h', hh', ha⟩
      exact fun hm => hr.not_mem_other hh hh' he hm ha
  · by_cases he1 : h1 = h
    · subst he1
      rw [Function.update_self, Function.update_of_ne hne.symm]
      exact List.disjoint_symm (hnew h2 hl2 hne.symm)
    · rw [Function.update_of_ne he1]
      by_cases he2 : h2 = h
      · subst he2; rw [Function.update_self]; exact hnew h1 hl1 he1
      · rw [Function.update_of_ne he2]; exact hr.disj h1 h2 hl1 hl2 hne

/-- A new node comes in at the end of `h`'s list. -/
theorem Rings.insert_last (hr : Rings m live seq) (hh : live h) (hx : ¬ InRings live seq x)
    (hi : Insert m m' ((h :: seq h).getLast (by simp)) h x) :
    Rings m' live (Function.update seq h (seq h ++ [x])) := by
  have hxh : x ∉ h :: seq h := fun hm => hx ⟨h, hh, hm⟩
  refine hr.update hh ?_ (fun y hy => ?_) (fun a ha hin => ?_)
  · have h0 : Ring m h (seq h ++ []) := by rw [List.append_nil]; exact hr.ring h hh
    exact h0.of_insert (by rw [List.append_nil]; exact hxh) hi
  · rcases List.mem_append.mp hy with hy | hy
    · exact Or.inl (List.mem_cons_of_mem _ hy)
    · exact Or.inr (List.mem_singleton.mp hy ▸ hx)
  · refine hi.frame (fun e => ha (e ▸ List.getLast_mem _)) (fun e => ha (e ▸ List.mem_cons_self)) ?_
    rintro rfl
    exact hx hin

/-- A new node comes in at the front of `h`'s list. -/
theorem Rings.insert_first (hr : Rings m live seq) (hh : live h) (hx : ¬ InRings live seq x)
    (hi : Insert m m' h ((seq h).headD h) x) :
    Rings m' live (Function.update seq h (x :: seq h)) := by
  have hxh : x ∉ h :: seq h := fun hm => hx ⟨h, hh, hm⟩
  refine hr.update hh ?_ (fun y hy => ?_) (fun a ha hin => ?_)
  · exact (show Ring m h ([] ++ seq h) from hr.ring h hh).of_insert hxh hi
  · rcases List.mem_cons.mp hy with rfl | hy
    · exact Or.inr hx
    · exact Or.inl (List.mem_cons_of_mem _ hy)
  · refine hi.frame (fun e => ha (e ▸ List.mem_cons_self)) ?_ ?_
    · rintro rfl
      apply ha
      cases seq h <;> simp
    · rintro rfl
      exact hx hin

/-- A node leaves `h`'s list. -/
theorem Rings.remove (hr : Rings m live seq) (hh : live h) {l r : List α} (hs : seq h = l ++ x :: r)
    (hi : Remove m m' ((h :: l).getLast (by simp)) (r.headD h)) :
    Rings m' live (Function.update seq h (l ++ r)) := by
  have hring := hr.ring h hh
  rw [hs] at hring
  refine hr.update hh (hring.of_remove hi) (fun y hy => Or.inl ?_) (fun a ha _ => ?_)
  · rw [hs]
    simp only [List.mem_append, List.mem_cons] at hy ⊢
    tauto
  · rw [hs] at ha
    refine hi.frame (fun e => ha ?_) (fun e => ha ?_)
    · have hm : a ∈ h :: l := e ▸ List.getLast_mem _
      exact List.mem_append_left (x :: r) hm
    · rw [e]
      cases r <;> simp

/-- A head that no list uses starts an empty list. -/
theorem Rings.add_empty (hr : Rings m live seq) (hx : ¬ InRings live seq x)
    (hself : m' x = ⟨some x, some x⟩) (hframe : ∀ a, a ≠ x → m' a = m a) :
    Rings m' (fun a => live a ∨ a = x) (Function.update seq x []) := by
  have hne : ∀ h', live h' → h' ≠ x := fun h' hh' e => hx ⟨h', hh', e ▸ List.mem_cons_self⟩
  have hdis : ∀ h', live h' → List.Disjoint (h' :: seq h') [x] := by
    intro h' hh' z hz hz'
    rw [List.mem_singleton] at hz'
    exact hx ⟨h', hh', hz' ▸ hz⟩
  refine ⟨fun h' hh' => ?_, fun h1 h2 hl1 hl2 hn => ?_⟩
  · by_cases he : h' = x
    · subst he
      rw [Function.update_self]
      exact ⟨by simp [Linked, hself], by simp⟩
    · rw [Function.update_of_ne he]
      have hl := hh'.resolve_right he
      exact (hr.ring h' hl).congr fun a ha => hframe a fun e => hx ⟨h', hl, e ▸ ha⟩
  · rcases hl1 with hl1 | rfl <;> rcases hl2 with hl2 | rfl
    · rw [Function.update_of_ne (hne _ hl1), Function.update_of_ne (hne _ hl2)]
      exact hr.disj h1 h2 hl1 hl2 hn
    · rw [Function.update_self, Function.update_of_ne (hne _ hl1)]
      exact hdis h1 hl1
    · rw [Function.update_self, Function.update_of_ne (hne _ hl2)]
      exact List.disjoint_symm (hdis h2 hl2)
    · exact absurd rfl hn

omit [DecidableEq α] in
theorem Rings.congr (hr : Rings m live seq) (heq : ∀ a, InRings live seq a → m' a = m a) :
    Rings m' live seq :=
  ⟨fun h hh => (hr.ring h hh).congr fun a ha => heq a ⟨h, hh, ha⟩, hr.disj⟩

omit [DecidableEq α] in
theorem Rings.congr_seq (hr : Rings m live seq) {seq' : α → List α} (heq : ∀ a, live a → seq a = seq' a) :
    Rings m live seq' := by
  refine ⟨fun h hh => heq h hh ▸ hr.ring h hh, fun h1 h2 hl1 hl2 hne => ?_⟩
  rw [← heq h1 hl1, ← heq h2 hl2]
  exact hr.disj h1 h2 hl1 hl2 hne

end family

end Ringlist
