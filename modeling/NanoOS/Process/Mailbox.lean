/-
# `send` and `receive` as single operations

Run without interruption, `send` and `receive` should make a FIFO mailbox for
each thread: `receive(ANY)` takes the oldest message sent to the thread and
`receive(src)` the oldest one from `src`. The slots of `msg_pool` are handed
out in turn by `p_free`, whatever has become of the messages in them, so they
do as long as the slot of no pending message comes up again. Here the
mailboxes are compared with lists of messages (`Letters`), whose messages
carry the number of the `send` they come from: the slot of message number `t`
is `t % MSG_POOL_SIZE`.

Key definitions: `Ipc.send`, `Ipc.receive`, `Letters`, `Spare`, `Holds`.
Key theorems: `Holds.send`, `Holds.receive`, `mailboxes_fifo`.
-/
import Mathlib.Algebra.BigOperators.Group.Finset.Basic
import Mathlib.Algebra.BigOperators.Group.Finset.Piecewise
import Mathlib.Algebra.Order.BigOperators.Group.Finset
import NanoOS.Process.SchedInv
import NanoOS.Process.MailInv

namespace NanoOS

open Ringlist Trans

/-- The memory of `message.c` and what it uses of the scheduler's. -/
structure Ipc where
  sched : Sched
  mail : Mail

namespace Ipc

/-- After `init_proc`. -/
def boot : Ipc := ⟨Sched.initProc Sched.zero, Mail.initBox 0 Mail.zero⟩

/-- Thread `i` runs. -/
def runs (i : ℕ) (s : Ipc) : Ipc := { s with sched := { s.sched with current := i } }

/-- `create_kthread`. -/
def createKthread (s : Ipc) : Option Ipc :=
  s.sched.createKthread.map fun r => ⟨r.2, s.mail.initBox r.1⟩

/-- `send`. The pid of a PCB is its index in `pcb_pool`. -/
def send (dest : ℕ) (x : Msg) (s : Ipc) : Option Ipc :=
  (s.sched.V (.msgSem dest)).map fun c =>
    ⟨c, (s.mail.copyMsg (Mail.stamp s.sched.current dest x)).linkMsg dest⟩

/-- The `list_foreach` of `receive(src)` from node `p` on: the first message
of the mailbox of `me` that comes from `src`, or `none` at its end. A loop
that has not ended after the rounds given does not end. -/
def scan (m : Mail) (me : ℕ) (src : ℤ) : ℕ → MailNode → Option (Option MailNode)
  | 0, _ => none
  | fuel + 1, p =>
    if p = .box me then some none
    else (m.msgAt p).bind fun x =>
      if x.src = src then some (some p)
      else (m.links p).next.bind fun p' => scan m me src fuel p'

/-- `msg_to_rcv`: the first node of the mailbox for `ANY`, else the one the
loop finds. -/
def msgToRcv (m : Mail) (me : ℕ) (src : ℤ) : Option MailNode :=
  (m.links (.box me)).next.bind fun p =>
    if src = anySrc then some p else (scan m me src (msgPoolSize + 1) p).join

/-- `receive`, with the message it copies out. It is `none` if it does not
return by itself: `P` blocks, or a selective `receive` finds no match and
starts over. -/
def receive (src : ℤ) (s : Ipc) : Option (Msg × Ipc) :=
  let me := s.sched.current
  if 0 < s.sched.token (.msgSem me) then
    (msgToRcv s.mail me src).bind fun p =>
      ((s.mail.unlinkMsg p).msgAt p).map fun x => (x, ⟨s.sched.P (.msgSem me), s.mail.unlinkMsg p⟩)
  else none

/-- The threads: the idle one and those created. -/
def Thread (s : Ipc) (i : ℕ) : Prop := i = 0 ∨ s.sched.created i = true

end Ipc

/-! ### The mailboxes as lists -/

/-- What has been sent and not received: the number of the next message, and
for each thread its messages, oldest first, with their numbers. -/
structure Letters where
  count : ℕ
  box : ℕ → List (ℕ × MsgData)

/-- `receive(src)` may take the message. -/
def takes (src : ℤ) (y : ℕ × MsgData) : Bool := decide (src = anySrc ∨ y.2.src = src)

namespace Letters

def init : Letters := ⟨0, fun _ => []⟩

/-- A message for `dest`. -/
def send (dest : ℕ) (d : MsgData) (g : Letters) : Letters :=
  ⟨g.count + 1, Function.update g.box dest (g.box dest ++ [(g.count, d)])⟩

/-- The oldest message for `me` that `receive(src)` may take is gone. -/
def receive (me : ℕ) (src : ℤ) (g : Letters) : Letters :=
  { g with box := Function.update g.box me ((g.box me).eraseP (takes src)) }

/-- The number of pending messages. -/
def pending (g : Letters) : ℕ := ∑ i ∈ Finset.range pcbPoolSize, (g.box i).length

/-- Every pending message is one of the last `MSG_POOL_SIZE - 1` sent: the
slot the next one goes to is not in a mailbox. -/
def Spare (g : Letters) : Prop := ∀ i, ∀ y ∈ g.box i, g.count < y.1 + msgPoolSize

theorem mem_send {g : Letters} {dest i : ℕ} {d : MsgData} {y : ℕ × MsgData}
    (hy : y ∈ (g.send dest d).box i) : y ∈ g.box i ∨ i = dest ∧ y = (g.count, d) := by
  by_cases hi : i = dest
  · subst hi
    simpa [send] using hy
  · exact Or.inl (by simpa [send, hi] using hy)

end Letters

/-- The slot of a message. -/
def slotOf (y : ℕ × MsgData) : ℕ := y.1 % msgPoolSize

/-- The memory holds the pending messages `g`: the mailboxes are the rings of
their slots, the slots have their contents, and the tokens count them. No
thread waits for a message, since `receive` is a single operation. -/
structure Holds (s : Ipc) (g : Letters) : Prop where
  sched : ∃ q, s.sched.Inv q ∧ ∀ i, q (.sem (.msgSem i)) = []
  inited : ∀ i, s.sched.created i = true → s.sched.inited (.msgSem i) = true
  token : ∀ i, s.sched.created i = true → s.sched.token (.msgSem i) = (g.box i).length
  boxes : Mail.Boxes s.mail s.Thread fun i => (g.box i).map slotOf
  pool : ∀ i, ∀ y ∈ g.box i, s.mail.pool (slotOf y) = y.2
  cursor : s.mail.pFree = g.count % msgPoolSize
  past : ∀ i, ∀ y ∈ g.box i, y.1 < g.count

namespace Holds

variable {s s' : Ipc} {g : Letters} {i : ℕ}

theorem empty_of_not_thread (hH : Holds s g) (hi : ¬ s.Thread i) : g.box i = [] :=
  List.map_eq_nil_iff.mp (hH.boxes.empty i hi)

theorem runs (hH : Holds s g) (hi : s.Thread i) : Holds (s.runs i) g := by
  obtain ⟨q, hI, hq⟩ := hH.sched
  exact ⟨⟨q, hI.set_current hi, hq⟩, hH.inited, hH.token, hH.boxes, hH.pool, hH.cursor, hH.past⟩

/-! ### `send` -/

theorem spare_slot (hH : Holds s g) (hg : g.Spare) (i : ℕ) : s.mail.pFree ∉ (g.box i).map slotOf := by
  intro hm
  obtain ⟨y, hy, he⟩ := List.mem_map.mp hm
  have h1 := hH.past i y hy
  have h2 := hg i y hy
  have h3 := hH.cursor
  -- two numbers less than `MSG_POOL_SIZE` apart with one remainder
  unfold slotOf at he
  unfold msgPoolSize at he h2 h3
  omega

/-- The `V` of `send` raises the token of the receiver; that of the idle PCB
does nothing. -/
theorem V_eq (hH : Holds s g) {dest : ℕ} (hd : s.Thread dest) :
    ∃ t, s.sched.V (.msgSem dest) = some { s.sched with token := t } ∧
      ∀ i, s.sched.created i = true →
        t (.msgSem i) = s.sched.token (.msgSem i) + if i = dest then 1 else 0 := by
  obtain ⟨q, hI, hq⟩ := hH.sched
  rcases hd with rfl | hc
  · refine ⟨s.sched.token, hI.V_idle, fun i hi => ?_⟩
    have := (hI.bounds i hi).1
    rw [if_neg (by omega), add_zero]
  · have hl : s.sched.Live (.sem (.msgSem dest)) := hH.inited dest hc
    have hV : s.sched.V (.msgSem dest) = some { s.sched with
        token := Function.update s.sched.token (.msgSem dest) (s.sched.token (.msgSem dest) + 1) } := by
      unfold Sched.V
      rw [if_pos ((hI.listEmpty_iff hl).mpr (hq dest))]
    refine ⟨_, hV, fun i _ => ?_⟩
    by_cases hi : i = dest
    · subst hi; simp
    · simp [hi]

/-- **`send` appends its message.** -/
theorem send (hH : Holds s g) (hg : g.Spare) {dest : ℕ} (hd : s.Thread dest) (x : Msg) :
    ∃ s', s.send dest x = some s' ∧ s'.sched.created = s.sched.created ∧
      Holds s' (g.send dest (Mail.stamp s.sched.current dest x).toMsgData) := by
  obtain ⟨t, hV, ht⟩ := hH.V_eq hd
  have hout := hH.spare_slot hg
  have hslot : slotOf (g.count, (Mail.stamp s.sched.current dest x).toMsgData) = s.mail.pFree :=
    hH.cursor.symm
  obtain ⟨q, hI, hq⟩ := hH.sched
  have hs : s.send dest x = some ⟨{ s.sched with token := t },
      (s.mail.copyMsg (Mail.stamp s.sched.current dest x)).linkMsg dest⟩ := by
    rw [Ipc.send, hV]
    rfl
  refine ⟨_, hs, rfl, ⟨q, hI.set_token t, hq⟩, hH.inited, ?_, ?_, ?_, ?_, ?_⟩
  · intro i hi
    change t (.msgSem i) = _
    rw [ht i hi, hH.token i hi]
    by_cases hid : i = dest
    · subst hid; simp [Letters.send]
    · simp [Letters.send, hid]
  · have hb := (hH.boxes.copyMsg hout (Mail.stamp s.sched.current dest x)).linkMsg hd hout
    refine hb.congr_box fun i => ?_
    by_cases hid : i = dest
    · subst hid
      simp [Letters.send, hslot, Mail.copyMsg]
    · simp [Letters.send, hid]
  · intro i y hy
    change Function.update s.mail.pool s.mail.pFree _ (slotOf y) = y.2
    rcases Letters.mem_send hy with hy | ⟨-, rfl⟩
    · have hne : slotOf y ≠ s.mail.pFree := fun e => hout i (e ▸ List.mem_map_of_mem hy)
      rw [Function.update_of_ne hne]
      exact hH.pool i y hy
    · rw [hslot, Function.update_self]
  · change (if s.mail.pFree + 1 ≥ msgPoolSize then 0 else s.mail.pFree + 1) = (g.count + 1) % msgPoolSize
    have := hH.cursor
    unfold msgPoolSize at *
    split_ifs <;> omega
  · intro i y hy
    rcases Letters.mem_send hy with hy | ⟨-, rfl⟩
    · exact Nat.lt_succ_of_lt (hH.past i y hy)
    · exact Nat.lt_succ_self _

/-! ### `receive` -/

/-- The loop of `receive(src)`, with the messages `r` still to look at, finds
the first one from `src`. -/
theorem scan_eq (hH : Holds s g) {me : ℕ} {src : ℤ} : ∀ {l r : List (ℕ × MsgData)} {fuel : ℕ},
    g.box me = l ++ r → r.length < fuel →
    Ipc.scan s.mail me src fuel ((r.map fun y => MailNode.slot (slotOf y)).headD (.box me)) =
      some ((r.find? fun y => decide (y.2.src = src)).map fun y => .slot (slotOf y))
  | _, _, 0, _, hf => absurd hf (Nat.not_lt_zero _)
  | _, [], fuel + 1, _, _ => by simp [Ipc.scan]
  | l, y :: r, fuel + 1, hb, hf => by
    have hy : y ∈ g.box me := by rw [hb]; simp
    have hat : s.mail.msgAt (.slot (slotOf y)) = some { y.2 with list := s.mail.links (.slot (slotOf y)) } := by
      simp only [Mail.msgAt, hH.pool me y hy]
    have hnext : (s.mail.links (.slot (slotOf y))).next =
        some ((r.map fun y => MailNode.slot (slotOf y)).headD (.box me)) := by
      have h := hH.boxes.next_slot (i := me) (s := slotOf y) (l := l.map slotOf) (r := r.map slotOf)
        (by rw [hb, List.map_append, List.map_cons])
      rwa [List.map_map] at h
    simp only [List.map_cons, List.headD_cons, Ipc.scan, reduceCtorEq, if_false, hat, Option.bind_some]
    by_cases hsrc : y.2.src = src
    · simp [hsrc]
    · rw [if_neg hsrc, hnext, Option.bind_some,
        scan_eq hH (l := l ++ [y]) (by rw [hb]; simp) (Nat.lt_of_succ_lt_succ hf)]
      simp [hsrc]

theorem length_le (hH : Holds s g) (me : ℕ) : (g.box me).length ≤ msgPoolSize := by
  have hsub : ((g.box me).map slotOf).toFinset ⊆ Finset.range msgPoolSize := by
    intro k hk
    obtain ⟨y, -, rfl⟩ := List.mem_map.mp (List.mem_toFinset.mp hk)
    exact Finset.mem_range.mpr (Nat.mod_lt _ (by decide))
  have hcard := Finset.card_le_card hsub
  rwa [List.toFinset_card_of_nodup (hH.boxes.nodup me), Finset.card_range, List.length_map] at hcard

theorem msgToRcv_eq (hH : Holds s g) {me : ℕ} (src : ℤ) (hme : s.Thread me) (hne : g.box me ≠ []) :
    Ipc.msgToRcv s.mail me src = ((g.box me).find? (takes src)).map fun y => .slot (slotOf y) := by
  have hfirst : (s.mail.links (.box me)).next =
      some (((g.box me).map fun y => MailNode.slot (slotOf y)).headD (.box me)) := by
    have h := hH.boxes.next_box hme
    rwa [List.map_map] at h
  unfold Ipc.msgToRcv
  rw [hfirst, Option.bind_some]
  by_cases hany : src = anySrc
  · rw [if_pos hany]
    cases hb : g.box me with
    | nil => exact absurd hb hne
    | cons y r => simp [takes, hany]
  · have htakes : takes src = fun y => decide (y.2.src = src) := by
      funext y
      simp [takes, hany]
    rw [if_neg hany, scan_eq hH (l := []) rfl (Nat.lt_succ_of_le (hH.length_le me)), htakes]
    rfl

theorem erase_slot (hH : Holds s g) {me : ℕ} {p : ℕ × MsgData → Bool} {y : ℕ × MsgData}
    (hy : (g.box me).find? p = some y) :
    ((g.box me).map slotOf).erase (slotOf y) = ((g.box me).eraseP p).map slotOf := by
  obtain ⟨hp, l, r, hb, hl⟩ := List.find?_eq_some_iff_append.mp hy
  have hnd := hH.boxes.nodup me
  rw [hb, List.map_append, List.map_cons] at hnd
  have hout : slotOf y ∉ l.map slotOf := fun hm =>
    (List.nodup_append.mp hnd).2.2 _ hm _ List.mem_cons_self rfl
  have hl' : ∀ a ∈ l, ¬ p a = true := fun a ha => by simpa using hl a ha
  rw [hb, List.map_append, List.map_cons, List.erase_append_right _ hout, List.erase_cons_head,
    List.eraseP_append_right _ hl', List.eraseP_cons_of_pos hp, List.map_append]

theorem receive_none (hH : Holds s g) (hc : s.sched.created s.sched.current = true) {src : ℤ}
    (hy : (g.box s.sched.current).find? (takes src) = none) : s.receive src = none := by
  have htok := hH.token _ hc
  by_cases hb : g.box s.sched.current = []
  · simp [Ipc.receive, htok, hb]
  · simp [Ipc.receive, hH.msgToRcv_eq src (Or.inr hc) hb, hy]

section

variable {src : ℤ} {y : ℕ × MsgData}

theorem P_eq (hH : Holds s g) (hc : s.sched.created i = true) (hy : y ∈ g.box i) :
    0 < s.sched.token (.msgSem i) ∧ s.sched.P (.msgSem i) = { s.sched with
      token := Function.update s.sched.token (.msgSem i) (s.sched.token (.msgSem i) - 1) } := by
  have hpos : 0 < s.sched.token (.msgSem i) := by
    rw [hH.token i hc]
    exact_mod_cast List.length_pos_of_mem hy
  refine ⟨hpos, ?_⟩
  unfold Sched.P
  rw [if_pos hpos]

theorem receive_eq (hH : Holds s g) (hc : s.sched.created s.sched.current = true)
    (hy : (g.box s.sched.current).find? (takes src) = some y) :
    ∃ l, s.receive src = some ({ y.2 with list := l },
      ⟨s.sched.P (.msgSem s.sched.current), s.mail.unlinkMsg (.slot (slotOf y))⟩) := by
  have hmem := List.mem_of_find?_eq_some hy
  have hpool : (s.mail.unlinkMsg (.slot (slotOf y))).pool (slotOf y) = y.2 := hH.pool _ y hmem
  have hrcv := hH.msgToRcv_eq src (Or.inr hc) (List.ne_nil_of_mem hmem)
  rw [hy, Option.map_some] at hrcv
  refine ⟨(s.mail.unlinkMsg (.slot (slotOf y))).links (.slot (slotOf y)), ?_⟩
  simp only [Ipc.receive, if_pos (hH.P_eq hc hmem).1, hrcv, Option.bind_some, Mail.msgAt,
    Option.map_some, hpool]

theorem taken (hH : Holds s g) (hc : s.sched.created i = true) (hy : (g.box i).find? (takes src) = some y) :
    Holds ⟨s.sched.P (.msgSem i), s.mail.unlinkMsg (.slot (slotOf y))⟩ (g.receive i src) := by
  have hmem : y ∈ g.box i := List.mem_of_find?_eq_some hy
  have hsub : ∀ j, ∀ z ∈ (g.receive i src).box j, z ∈ g.box j := by
    intro j z hz
    by_cases hj : j = i
    · subst hj
      exact List.eraseP_subset (by simpa [Letters.receive] using hz)
    · simpa [Letters.receive, hj] using hz
  obtain ⟨q, hI, hq⟩ := hH.sched
  rw [(hH.P_eq hc hmem).2]
  refine ⟨⟨q, hI.set_token _, hq⟩, hH.inited, ?_, ?_, fun j z hz => hH.pool j z (hsub j z hz),
    hH.cursor, fun j z hz => hH.past j z (hsub j z hz)⟩
  · intro j hj
    by_cases hji : j = i
    · subst hji
      have hlen := List.length_eraseP_of_mem hmem (List.find?_some hy)
      have hpos := List.length_pos_of_mem hmem
      have htok := hH.token j hj
      simp only [Letters.receive, Function.update_self]
      omega
    · simp [Letters.receive, hji, hH.token j hj]
  · have hb := hH.boxes.unlinkMsg (List.mem_map_of_mem (f := slotOf) hmem)
    refine hb.congr_box fun j => ?_
    by_cases hj : j = i
    · subst hj
      simp [Letters.receive, hH.erase_slot hy]
    · simp [Letters.receive, hj]

end

/-- **`receive` takes the oldest message it may take.** -/
theorem receive (hH : Holds s g) (hc : s.sched.created s.sched.current = true) {x : Msg} {src : ℤ}
    (hs : s.receive src = some (x, s')) :
    s'.sched.created = s.sched.created ∧ Holds s' (g.receive s.sched.current src) ∧
      ∃ y, (g.box s.sched.current).find? (takes src) = some y ∧ x.toMsgData = y.2 := by
  cases hy : (g.box s.sched.current).find? (takes src) with
  | none =>
    rw [hH.receive_none hc hy] at hs
    cases hs
  | some y =>
    obtain ⟨l, hl⟩ := hH.receive_eq hc hy
    rw [hl] at hs
    cases hs
    refine ⟨?_, hH.taken hc hy, y, rfl, rfl⟩
    rw [(hH.P_eq hc (List.mem_of_find?_eq_some hy)).2]

/-! ### `create_kthread` and `init_proc` -/

theorem createKthread (hH : Holds s g) (hs : s.createKthread = some s') : Holds s' g := by
  simp only [Ipc.createKthread, Option.map_eq_some_iff] at hs
  obtain ⟨⟨k, c⟩, hc, rfl⟩ := hs
  obtain ⟨q, hI, hq⟩ := hH.sched
  obtain ⟨hI', hk, -⟩ := hI.createKthread hc
  obtain ⟨hcreated, hinited, htoken⟩ := Sched.createKthread_fields hc
  have hnew : ¬ s.Thread k := hI.not_thread_of_free hk
  have hold : ∀ {i}, i ≠ k → c.created i = true → s.sched.created i = true := by
    intro i hi h
    rwa [hcreated, Function.update_of_ne hi] at h
  have hthread : ∀ i, Ipc.Thread ⟨c, s.mail.initBox k⟩ i ↔ s.Thread i ∨ i = k := by
    intro i
    by_cases hi : i = k
    · subst hi
      simp [Ipc.Thread, hcreated]
    · simp [Ipc.Thread, hcreated, hi]
  refine ⟨⟨_, hI', fun i => ?_⟩, ?_, ?_, hH.boxes.initBox hnew hthread, hH.pool, hH.cursor, hH.past⟩
  · simp [Sched.movedQ, hq i]
  · intro i hi
    by_cases hik : i = k
    · subst hik
      simp [hinited]
    · simp [hinited, hik, hH.inited i (hold hik hi)]
  · intro i hi
    by_cases hik : i = k
    · subst hik
      simp [htoken, hH.empty_of_not_thread hnew]
    · simp [htoken, hik, hH.token i (hold hik hi)]

theorem boot : Holds Ipc.boot Letters.init := by
  have hnone : ∀ i, Ipc.boot.sched.created i = false := fun i => by
    cases h : Ipc.boot.sched.created i with
    | false => rfl
    | true => simp [Ipc.boot, Sched.initProc, Sched.zero] at h
  have hthread : Ipc.boot.Thread = fun i => i = 0 := by
    funext i
    simp [Ipc.Thread, hnone i]
  refine ⟨⟨_, Sched.inv_initProc, fun i => rfl⟩, fun i hi => ?_, fun i hi => ?_, ?_, ?_, rfl, ?_⟩
  · rw [hnone i] at hi
    cases hi
  · rw [hnone i] at hi
    cases hi
  · rw [hthread]
    exact Mail.boxes_init
  · exact fun i y hy => absurd hy List.not_mem_nil
  · exact fun i y hy => absurd hy List.not_mem_nil

end Holds

/-! ### Every order of operations -/

namespace Ipc

/-- The operations, with the thread that performs them. -/
inductive Op
  | createKthread
  | send (me dest : ℕ) (x : Msg)
  | receive (me : ℕ) (src : ℤ)

namespace Op

/-- What an operation does. -/
def step (s : Ipc) : Op → Option Ipc
  | .createKthread => s.createKthread
  | .send me dest x => (s.runs me).send dest x
  | .receive me src => ((s.runs me).receive src).map Prod.snd

/-- What it does to the lists of messages. -/
def record (_ : Ipc) : Op → Letters → Letters
  | .createKthread, g => g
  | .send me dest x, g => g.send dest (Mail.stamp me dest x).toMsgData
  | .receive me src, g => g.receive me src

/-- Messages go from threads to threads, and the idle thread receives none. -/
def Ok (s : Ipc) : Op → Prop
  | .createKthread => True
  | .send me dest _ => s.Thread me ∧ s.Thread dest
  | .receive me _ => s.sched.created me = true

/-- A `send` does not come upon the slot of a pending message. -/
def Spare (g : Letters) : Op → Prop
  | .send _ _ _ => g.Spare
  | _ => True

/-- At most `MSG_POOL_SIZE - 1` messages are pending after the operation. -/
def Few (p : Ipc × Letters) (a : Op) : Prop := (record p.1 a p.2).pending ≤ msgPoolSize - 1

end Op

/-- The memory and the lists, as the operations go on. -/
abbrev mailStep : Ipc × Letters → Op → Option (Ipc × Letters) := withHistory Op.step Op.record

end Ipc

open Ipc

theorem Holds.step {s s' : Ipc} {g : Letters} {a : Op} (hH : Holds s g) (hok : a.Ok s) (hg : a.Spare g)
    (hs : a.step s = some s') : Holds s' (a.record s g) := by
  cases a with
  | createKthread => exact hH.createKthread hs
  | send me dest x =>
    obtain ⟨t, ht, -, hH'⟩ := (hH.runs hok.1).send hg hok.2 x
    rw [Op.step, ht] at hs
    cases hs
    exact hH'
  | receive me src =>
    simp only [Op.step, Option.map_eq_some_iff] at hs
    obtain ⟨⟨x, t⟩, ht, rfl⟩ := hs
    exact ((hH.runs (Or.inr hok)).receive hok ht).2.1

/-- The states of a run in which no `send` comes upon the slot of a pending
message. -/
theorem reach_holds {p : Ipc × Letters}
    (h : Reach mailStep (fun p a => a.Ok p.1 ∧ a.Spare p.2) (Ipc.boot, Letters.init) p) :
    Holds p.1 p.2 := by
  refine h.invariant (I := fun p => Holds p.1 p.2) Holds.boot fun p a p' hH hok hs => ?_
  obtain ⟨hs, hg⟩ := withHistory_eq_some.mp hs
  rw [hg]
  exact hH.step hok.1 hok.2 hs

/-- **The mailboxes are FIFO as long as no slot is reused too early.** In
every run of `create_kthread`, `send` and `receive` whose `send`s all find
`msg_pool[p_free]` in no mailbox: the mailboxes hold exactly the messages sent
and not yet received, each in the mailbox of the thread it was sent to, in the
order they were sent and with the contents they were sent with; a further such
`send` returns; and a `receive` of any thread returns exactly if there is a
message it may take, with a copy of the oldest one. -/
theorem mailboxes_fifo {p : Ipc × Letters}
    (h : Reach mailStep (fun p a => a.Ok p.1 ∧ a.Spare p.2) (Ipc.boot, Letters.init) p) :
    (∃ b, Mail.Boxes p.1.mail p.1.Thread b ∧
      ∀ i, (b i).map p.1.mail.pool = (p.2.box i).map Prod.snd) ∧
    (∀ me dest x, p.1.Thread me → p.1.Thread dest → p.2.Spare →
      ∃ s', (p.1.runs me).send dest x = some s') ∧
    ∀ me src, p.1.sched.created me = true →
      ((p.1.runs me).receive src).map (fun r => r.1.toMsgData) =
        ((p.2.box me).find? (takes src)).map Prod.snd := by
  have hH := reach_holds h
  refine ⟨⟨_, hH.boxes, fun i => ?_⟩, fun me dest x hme hd hg => ?_, fun me src hme => ?_⟩
  · rw [List.map_map]
    exact List.map_congr_left fun y hy => hH.pool i y hy
  · obtain ⟨s', hs, -⟩ := (hH.runs hme).send hg hd x
    exact ⟨s', hs⟩
  · have hR := hH.runs (Or.inr hme)
    cases hy : (p.2.box me).find? (takes src) with
    | none =>
      rw [hR.receive_none hme hy]
      rfl
    | some y =>
      obtain ⟨l, hl⟩ := hR.receive_eq hme hy
      rw [hl]
      rfl

/-! ### A slot that comes up too early -/

theorem pending_le {g : Letters} {a b : ℕ} (h1 : (g.box 1).length ≤ a) (h2 : (g.box 2).length ≤ b)
    (h : ∀ i, i ≠ 1 → i ≠ 2 → g.box i = []) : g.pending ≤ a + b := by
  have hle : ∀ i ∈ Finset.range pcbPoolSize,
      (g.box i).length ≤ (if i = 1 then a else 0) + (if i = 2 then b else 0) := by
    intro i _
    by_cases hi1 : i = 1
    · subst hi1; simpa using h1
    · by_cases hi2 : i = 2
      · subst hi2; simpa using h2
      · simp [h i hi1 hi2]
  refine (Finset.sum_le_sum hle).trans ?_
  rw [Finset.sum_add_distrib, Finset.sum_ite_eq', Finset.sum_ite_eq']
  simp [pcbPoolSize]

/-- A message with type `t`. -/
def plainMsg (t : ℤ) : Msg := { MsgData.zero with type := t, list := ⟨none, none⟩ }

/-- Thread 1 has a message of thread 2, the first one ever sent, and `n`
messages have been sent in all. -/
def oldLetter (n : ℕ) : Letters :=
  ⟨n, fun i => if i = 1 then [(0, (Mail.stamp 2 1 (plainMsg 7)).toMsgData)] else []⟩

theorem oldLetter_mem {n i : ℕ} {y : ℕ × MsgData} (hy : y ∈ (oldLetter n).box i) : y.1 = 0 := by
  simp only [oldLetter] at hy
  split_ifs at hy
  · rw [List.mem_singleton.mp hy]
  · cases hy

theorem oldLetter_pending (n : ℕ) : (oldLetter n).pending ≤ msgPoolSize - 1 := by
  have h := pending_le (g := oldLetter n) (a := 1) (b := 0) (by simp [oldLetter]) (by simp [oldLetter])
    fun i h1 _ => by simp [oldLetter, h1]
  exact h.trans (by decide)

theorem oldLetter_send_pending (n : ℕ) (d : MsgData) :
    ((oldLetter n).send 2 d).pending ≤ msgPoolSize - 1 := by
  have h := pending_le (g := (oldLetter n).send 2 d) (a := 1) (b := 1) (by simp [oldLetter, Letters.send])
    (by simp [oldLetter, Letters.send]) fun i h1 h2 => by simp [oldLetter, Letters.send, h1, h2]
  exact h.trans (by decide)

theorem oldLetter_spare {n : ℕ} (hn : n < msgPoolSize) : (oldLetter n).Spare := by
  intro i y hy
  rw [oldLetter_mem hy]
  simpa [oldLetter] using hn

theorem oldLetter_round (n : ℕ) (d : MsgData) :
    ((oldLetter n).send 2 d).receive 2 anySrc = oldLetter (n + 1) := by
  unfold Letters.receive Letters.send oldLetter
  congr 1
  funext i
  by_cases hi : i = 2
  · subst hi
    simp [takes]
  · simp [hi]

/-- A run of at most `MSG_POOL_SIZE - 1` pending messages has come to `s`, no
slot was reused too early, and threads 1 and 2 are there. -/
structure Stage (s : Ipc) (g : Letters) : Prop where
  run : Reach mailStep (fun p a => (a.Ok p.1 ∧ a.Spare p.2) ∧ a.Few p) (Ipc.boot, Letters.init) (s, g)
  one : s.sched.created 1 = true
  two : s.sched.created 2 = true

namespace Stage

variable {s : Ipc} {g : Letters}

theorem holds (hS : Stage s g) : Holds s g :=
  reach_holds (hS.run.mono fun _ _ h => h.1)

/-- Thread 2 sends a message. -/
theorem send (hS : Stage s g) (hg : g.Spare) {dest : ℕ} (hd : s.Thread dest) (x : Msg)
    (hf : (g.send dest (Mail.stamp 2 dest x).toMsgData).pending ≤ msgPoolSize - 1) :
    ∃ s', Stage s' (g.send dest (Mail.stamp 2 dest x).toMsgData) := by
  obtain ⟨s', hs, hc, -⟩ := (hS.holds.runs (Or.inr hS.two)).send hg hd x
  have hok : (Op.send 2 dest x).Ok s := ⟨Or.inr hS.two, hd⟩
  refine ⟨s', .step hS.run ⟨⟨hok, hg⟩, hf⟩ (withHistory_eq_some.mpr ⟨hs, rfl⟩), ?_, ?_⟩
  · rw [hc]; exact hS.one
  · rw [hc]; exact hS.two

/-- Thread 2 receives its oldest message. -/
theorem receive (hS : Stage s g) (hb : g.box 2 ≠ [])
    (hf : (g.receive 2 anySrc).pending ≤ msgPoolSize - 1) : ∃ s', Stage s' (g.receive 2 anySrc) := by
  have hR := hS.holds.runs (Or.inr hS.two)
  obtain ⟨y, r, hy⟩ := List.exists_cons_of_ne_nil hb
  have hfind : (g.box 2).find? (takes anySrc) = some y := by simp [hy, takes]
  obtain ⟨l, hl⟩ := hR.receive_eq hS.two hfind
  have hc := (hR.receive hS.two hl).1
  have hs : (Op.receive 2 anySrc).step s = some _ := congrArg (Option.map Prod.snd) hl
  refine ⟨_, .step (a := .receive 2 anySrc) hS.run ⟨⟨hS.two, trivial⟩, hf⟩
    (withHistory_eq_some.mpr ⟨hs, rfl⟩), ?_, ?_⟩
  · rw [hc]; exact hS.one
  · rw [hc]; exact hS.two

end Stage

theorem createKthread_eq {s : Ipc} {i : ℕ} {c : Sched} (h : s.sched.createKthread = some (i, c)) :
    Op.createKthread.step s = some ⟨c, s.mail.initBox i⟩ := by
  rw [Op.step, Ipc.createKthread, h]
  rfl

theorem stage_threads : ∃ s, Stage s Letters.init := by
  have hI := Sched.inv_initProc
  have hfree : Sched.initQ .free = 1 :: 2 :: List.range' 3 (pcbPoolSize - 3) := rfl
  obtain ⟨s1, h1⟩ := hI.createKthread_first hfree
  have hI1 := (hI.createKthread h1).1
  have hfree1 : Sched.movedQ Sched.initQ 1 .block .free = 2 :: List.range' 3 (pcbPoolSize - 3) := by
    rw [Sched.movedQ, if_neg (by simp), hfree, List.erase_cons_head]
  obtain ⟨s2, h2⟩ := hI1.createKthread_first hfree1
  have hc : s2.created 1 = true ∧ s2.created 2 = true := by
    rw [(Sched.createKthread_fields h2).1, (Sched.createKthread_fields h1).1]
    exact ⟨by simp, by simp⟩
  have hempty : Letters.init.pending ≤ msgPoolSize - 1 := by
    simp [Letters.pending, Letters.init]
  have hrun : Reach mailStep (fun p a => (a.Ok p.1 ∧ a.Spare p.2) ∧ a.Few p) (Ipc.boot, Letters.init)
      (⟨s1, Ipc.boot.mail.initBox 1⟩, Letters.init) :=
    .step (a := .createKthread) .init ⟨⟨trivial, trivial⟩, hempty⟩
      (withHistory_eq_some.mpr ⟨createKthread_eq (s := Ipc.boot) h1, rfl⟩)
  exact ⟨⟨s2, (Ipc.boot.mail.initBox 1).initBox 2⟩,
    .step (a := .createKthread) hrun ⟨⟨trivial, trivial⟩, hempty⟩
      (withHistory_eq_some.mpr ⟨createKthread_eq h2, rfl⟩), hc.1, hc.2⟩

theorem stage_rounds : ∀ n, n < msgPoolSize → ∃ s, Stage s (oldLetter (n + 1))
  | 0, _ => by
    obtain ⟨s, hS⟩ := stage_threads
    have hg : Letters.init.Spare := fun i y hy => absurd hy List.not_mem_nil
    have heq : Letters.init.send 1 (Mail.stamp 2 1 (plainMsg 7)).toMsgData = oldLetter 1 := by
      unfold Letters.send Letters.init oldLetter
      congr 1
      funext i
      by_cases hi : i = 1
      · subst hi; simp
      · simp [hi]
    rw [← heq]
    exact hS.send hg (Or.inr hS.one) (plainMsg 7) (by rw [heq]; exact oldLetter_pending 1)
  | n + 1, hn => by
    obtain ⟨s, hS⟩ := stage_rounds n (by omega)
    obtain ⟨t, hT⟩ := hS.send (oldLetter_spare hn) (Or.inr hS.two) (plainMsg 8)
      (oldLetter_send_pending _ _)
    have hb : ((oldLetter (n + 1)).send 2 (Mail.stamp 2 2 (plainMsg 8)).toMsgData).box 2 ≠ [] := by
      simp [Letters.send]
    have heq := oldLetter_round (n + 1) (Mail.stamp 2 2 (plainMsg 8)).toMsgData
    obtain ⟨u, hU⟩ := hT.receive hb (by rw [heq]; exact oldLetter_pending _)
    exact ⟨u, heq ▸ hU⟩

/-- With the slots gone round once and the first message still pending, it is
received as it was sent. -/
theorem mailboxes_fifo_round : ∃ p,
    Reach mailStep (fun p a => a.Ok p.1 ∧ a.Spare p.2) (Ipc.boot, Letters.init) p ∧
    p.2.count = msgPoolSize ∧
    ((p.1.runs 1).receive anySrc).map (fun r => r.1.toMsgData) =
      some (Mail.stamp 2 1 (plainMsg 7)).toMsgData := by
  obtain ⟨s, hS⟩ := stage_rounds 511 (by decide)
  have hrun : Reach mailStep (fun p a => a.Ok p.1 ∧ a.Spare p.2) (Ipc.boot, Letters.init)
      (s, oldLetter 512) := hS.run.mono fun _ _ h => h.1
  refine ⟨_, hrun, rfl, ?_⟩
  rw [(mailboxes_fifo hrun).2.2 1 anySrc hS.one]
  rfl

/-- A `send` that comes upon the slot of a pending message puts its own
message in its place, for the thread that message was sent to. -/
theorem Holds.overwrite {s s' : Ipc} {g : Letters} {i dest : ℕ} {x : Msg} {y : ℕ × MsgData}
    {r : List (ℕ × MsgData)} (hH : Holds s g) (hi : s.sched.created i = true) (hb : g.box i = y :: r)
    (hy : slotOf y = s.mail.pFree) (hd : s.sched.created dest = true) (hne : i ≠ dest)
    (hbd : g.box dest = []) (hs : s.send dest x = some s') :
    ((s'.runs i).receive anySrc).map (fun r => r.1.toMsgData) =
      some (Mail.stamp s.sched.current dest x).toMsgData := by
  obtain ⟨t, hV, ht⟩ := hH.V_eq (Or.inr hd)
  rw [Ipc.send, hV] at hs
  cases hs
  have hpos : 0 < t (.msgSem i) := by
    rw [ht i hi, hH.token i hi, hb, if_neg hne]
    simp
  have hfirst : (s.mail.links (.box i)).next = some (.slot s.mail.pFree) := by
    rw [hH.boxes.next_box (Or.inr hi), hb, List.map_cons, List.map_cons, List.headD_cons, hy]
  have hlast : (s.mail.links (.box dest)).prev = some (.box dest) := by
    have h := (hH.boxes.ring (i := dest) (Or.inr hd)).prev_head
    rwa [hbd] at h
  have hnode : Ipc.msgToRcv ((s.mail.copyMsg (Mail.stamp s.sched.current dest x)).linkMsg dest) i anySrc =
      some (.slot s.mail.pFree) := by
    simp [Ipc.msgToRcv, Mail.linkMsg, Mail.copyMsg, listAddBefore, listAdd, hlast, hne, hfirst]
  simp only [Ipc.receive, Ipc.runs, if_pos hpos, hnode, Option.bind_some, Mail.msgAt, Option.map_some]
  simp [Mail.unlinkMsg, Mail.linkMsg, Mail.copyMsg]

/-- **A slow receiver gets a message that was not sent to it.** Thread 2 sends
thread 1 a message of type 7 and then 512 messages to itself, of which it
receives all but the last: never more than two are pending. The last one is
copied to the slot of the first, and `receive(ANY)` of thread 1 returns it. -/
theorem mailboxes_overwritten : ∃ p,
    Reach mailStep (fun p a => a.Ok p.1 ∧ a.Few p) (Ipc.boot, Letters.init) p ∧
    p.1.sched.created 1 = true ∧
    ((p.2.box 1).find? (takes anySrc)).map Prod.snd = some (Mail.stamp 2 1 (plainMsg 7)).toMsgData ∧
    ((p.1.runs 1).receive anySrc).map (fun r => r.1.toMsgData) =
      some (Mail.stamp 2 2 (plainMsg 9)).toMsgData ∧
    (Mail.stamp 2 1 (plainMsg 7)).toMsgData ≠ (Mail.stamp 2 2 (plainMsg 9)).toMsgData := by
  obtain ⟨s, hS⟩ := stage_rounds 511 (by decide)
  have hR := hS.holds.runs (Or.inr hS.two)
  obtain ⟨t, hV, -⟩ := hR.V_eq (Or.inr hS.two)
  obtain ⟨s', hs, hc⟩ : ∃ s', (s.runs 2).send 2 (plainMsg 9) = some s' ∧ s'.sched.created 1 = true := by
    rw [Ipc.send, hV]
    exact ⟨_, rfl, hS.one⟩
  have hrun : Reach mailStep (fun p a => a.Ok p.1 ∧ a.Few p) (Ipc.boot, Letters.init)
      (s, oldLetter 512) := hS.run.mono fun _ _ h => ⟨h.1.1, h.2⟩
  have hok : (Op.send 2 2 (plainMsg 9)).Ok s := ⟨Or.inr hS.two, Or.inr hS.two⟩
  refine ⟨(s', (oldLetter 512).send 2 (Mail.stamp 2 2 (plainMsg 9)).toMsgData),
    .step (a := .send 2 2 (plainMsg 9)) hrun ⟨hok, oldLetter_send_pending _ _⟩
      (withHistory_eq_some.mpr ⟨hs, rfl⟩), hc, rfl, ?_, by decide⟩
  exact hR.overwrite hS.one rfl hR.cursor.symm hS.two (by decide) rfl hs

end NanoOS
