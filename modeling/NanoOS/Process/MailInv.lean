/-
# What the mailboxes hold

The mailboxes are disjoint rings of slots of `msg_pool`: `Boxes m own b` says
that the mailbox of each PCB in `own` is set up and holds the slots `b i`, in
this order. The pieces of `send` and `receive` append a slot to one mailbox
or take one out, and `p_free` and the links of slots in no mailbox are all
else they touch.

Key definitions: `Boxes`.
Key theorems: `Boxes.copyMsg`, `Boxes.linkMsg`, `Boxes.unlinkMsg`, `Boxes.initBox`.
-/
import NanoOS.Process.Message

namespace NanoOS
namespace Mail

open Ringlist

/-- The heads of the mailboxes that are set up. -/
def boxLive (own : ℕ → Prop) : MailNode → Prop
  | .box i => own i
  | .slot _ => False

/-- The nodes of a mailbox. -/
def boxSeq (b : ℕ → List ℕ) : MailNode → List MailNode
  | .box i => (b i).map MailNode.slot
  | .slot _ => []

/-- The mailboxes of the PCBs in `own` hold the slots `b`. -/
structure Boxes (m : Mail) (own : ℕ → Prop) (b : ℕ → List ℕ) : Prop where
  rings : Rings m.links (boxLive own) (boxSeq b)
  empty : ∀ i, ¬ own i → b i = []

variable {m : Mail} {own : ℕ → Prop} {b : ℕ → List ℕ} {i j s : ℕ}

/-! ### Reading it -/

theorem Boxes.own_of_mem (hM : Boxes m own b) (hs : s ∈ b i) : own i := by
  by_contra h
  rw [hM.empty i h] at hs
  cases hs

theorem Boxes.nodup (hM : Boxes m own b) (i : ℕ) : (b i).Nodup := by
  by_cases h : own i
  · exact (List.nodup_cons.mp (hM.rings.ring (.box i) h).nodup).2.of_map _
  · rw [hM.empty i h]; exact List.nodup_nil

theorem Boxes.unique (hM : Boxes m own b) (hi : s ∈ b i) (hj : s ∈ b j) : i = j := by
  by_contra hne
  have hne' : MailNode.box i ≠ .box j := fun h => hne (MailNode.box.inj h)
  refine hM.rings.disj (.box i) (.box j) (hM.own_of_mem hi) (hM.own_of_mem hj) hne'
    (a := MailNode.slot s) ?_ ?_
  · exact List.mem_cons_of_mem _ (List.mem_map_of_mem hi)
  · exact List.mem_cons_of_mem _ (List.mem_map_of_mem hj)

theorem Boxes.ring (hM : Boxes m own b) (hi : own i) :
    Ring m.links (.box i) ((b i).map MailNode.slot) := hM.rings.ring (.box i) hi

theorem Boxes.congr_box (hM : Boxes m own b) {b' : ℕ → List ℕ} (hb : ∀ i, b i = b' i) : Boxes m own b' :=
  (funext hb : b = b') ▸ hM

theorem Boxes.next_box (hM : Boxes m own b) (hi : own i) :
    (m.links (.box i)).next = some (((b i).map MailNode.slot).headD (.box i)) :=
  (hM.ring hi).next_head

theorem Boxes.next_slot (hM : Boxes m own b) {l r : List ℕ} (hb : b i = l ++ s :: r) :
    (m.links (.slot s)).next = some ((r.map MailNode.slot).headD (.box i)) := by
  have hring := hM.ring (i := i) (hM.own_of_mem (s := s) (by rw [hb]; simp))
  rw [hb, List.map_append, List.map_cons] at hring
  exact hring.around.2

theorem mem_boxSeq {i : ℕ} {n : MailNode} (hn : n ∈ boxSeq b (.box i)) : ∃ s ∈ b i, n = .slot s := by
  obtain ⟨s, hs, rfl⟩ := List.mem_map.mp hn
  exact ⟨s, hs, rfl⟩

theorem not_inRings_slot (hs : ∀ i, s ∉ b i) : ¬ InRings (boxLive own) (boxSeq b) (.slot s) := by
  rintro ⟨n, hn, hm⟩
  cases n with
  | slot k => exact hn
  | box i =>
    rcases List.mem_cons.mp hm with h | h
    · cases h
    · obtain ⟨s', hs', h'⟩ := mem_boxSeq h
      cases h'
      exact hs i hs'

/-! ### The operations -/

/-- Copying into a slot that no mailbox holds changes no mailbox. -/
theorem Boxes.copyMsg (hM : Boxes m own b) (hs : ∀ i, m.pFree ∉ b i) (x : Msg) :
    Boxes (m.copyMsg x) own b := by
  refine ⟨hM.rings.congr fun a ha => ?_, hM.empty⟩
  have hne : a ≠ .slot m.pFree := fun e => not_inRings_slot hs (e ▸ ha)
  simp [Mail.copyMsg, hne]

/-- `send` appends the slot to the mailbox of `dest`. -/
theorem Boxes.linkMsg (hM : Boxes m own b) {dest : ℕ} (hd : own dest) (hs : ∀ i, m.pFree ∉ b i) :
    Boxes (m.linkMsg dest) own (Function.update b dest (b dest ++ [m.pFree])) := by
  have hd' : boxLive own (.box dest) := hd
  refine ⟨(Rings.listAddBefore hM.rings hd' (not_inRings_slot hs)).congr_seq ?_, ?_⟩
  · intro a ha
    cases a with
    | slot k => exact ha.elim
    | box i =>
      by_cases hi : i = dest
      · subst hi; simp [boxSeq]
      · simp [boxSeq, hi]
  · intro i hi
    have hne : i ≠ dest := fun e => hi (e ▸ hd)
    simpa [hne] using hM.empty i hi

/-- `receive` takes a slot out of its mailbox. -/
theorem Boxes.unlinkMsg (hM : Boxes m own b) (hs : s ∈ b i) :
    Boxes (m.unlinkMsg (.slot s)) own (Function.update b i ((b i).erase s)) := by
  have hi := hM.own_of_mem hs
  have hi' : boxLive own (.box i) := hi
  have hm : MailNode.slot s ∈ boxSeq b (.box i) := List.mem_map_of_mem hs
  refine ⟨(Rings.listDel hM.rings hi' hm).congr_seq ?_, ?_⟩
  · intro a ha
    cases a with
    | slot k => exact ha.elim
    | box j =>
      by_cases hj : j = i
      · subst hj
        have hinj : Function.Injective MailNode.slot := fun _ _ h => MailNode.slot.inj h
        simp [boxSeq, List.map_erase hinj]
      · simp [boxSeq, hj]
  · intro j hj
    have hne : j ≠ i := fun e => hj (e ▸ hi)
    simpa [hne] using hM.empty j hj

/-- A mailbox that is set up is empty. -/
theorem Boxes.initBox (hM : Boxes m own b) {i : ℕ} (hi : ¬ own i) {own' : ℕ → Prop}
    (hown : ∀ j, own' j ↔ own j ∨ j = i) : Boxes (m.initBox i) own' b := by
  have hout : ¬ InRings (boxLive own) (boxSeq b) (.box i) := by
    rintro ⟨n, hn, hm⟩
    cases n with
    | slot k => exact hn
    | box j =>
      rcases List.mem_cons.mp hm with h | h
      · cases h; exact hi hn
      · obtain ⟨s, -, h'⟩ := mem_boxSeq h
        cases h'
  have hr := Rings.listInit hM.rings hout
  have hlive : (fun a => boxLive own a ∨ a = .box i) = boxLive own' := by
    funext a
    cases a with
    | box j => simp [boxLive, hown]
    | slot k => simp [boxLive]
  rw [hlive] at hr
  refine ⟨hr.congr_seq fun a _ => ?_, fun j hj => hM.empty j fun h => hj ((hown j).mpr (Or.inl h))⟩
  by_cases ha : a = .box i
  · subst ha
    simp [boxSeq, hM.empty i hi]
  · rw [Function.update_of_ne ha]

/-- After `init_proc`, the mailbox of the idle PCB is there and empty. -/
theorem boxes_init : Boxes (Mail.initBox 0 Mail.zero) (fun i => i = 0) fun _ => [] := by
  have h0 : Boxes Mail.zero (fun _ => False) fun _ => [] := by
    refine ⟨⟨fun a ha => ?_, fun a _ ha => ?_⟩, fun _ _ => rfl⟩
    · cases a <;> exact ha.elim
    · cases a <;> exact ha.elim
  exact h0.initBox (i := 0) id (by simp)

end Mail
end NanoOS
