/-
# Requests get their own replies

A request is with one driver until it is answered, and its thread waits; the
reply is then the only message of a driver in the mailbox of the thread, and
the thread is the only one to take it. So the calls of a thread, the replies to
it and what its calls return go along with each other, whatever the order in
which threads, drivers and interrupt handlers take their steps.

Key definitions: `At`, `Inv`.
Key theorems: `Inv.deliver`, `Inv.step`, `own_reply`.
-/
import NanoOS.Drivers.Works

namespace NanoOS
namespace Hal
namespace System

open Trans Queue Tty Rpc

variable {P : Setup} {s s' : System} {t : List Event} {c : ℤ} {d : Driver} {m r : MsgData}

/-! ### Where the call of a thread is -/

/-- The call of thread `c` is at `φ`: its request is with one driver, or the
reply is in its mailbox. -/
def At (P : Setup) (s : System) (c : ℤ) : Phase MsgData MsgData → Prop
  | .idle => s.waiting c = none ∧ (∀ d, of c (s.load P d) = 0) ∧ s.inbox P c = []
  | .sent m => ∃ d, s.waiting c = some (P.pid d) ∧ m.dest = P.pid d ∧
    (∀ d', of c (s.load P d') = if d' = d then {m} else 0) ∧ s.inbox P c = []
  | .answered _ r => ∃ d, s.waiting c = some (P.pid d) ∧ r.src = P.pid d ∧
    (∀ d, of c (s.load P d) = 0) ∧ s.inbox P c = [r]

/-- Nothing has changed for thread `c`. -/
structure Same (P : Setup) (c : ℤ) (s s' : System) : Prop where
  waiting : s'.waiting c = s.waiting c
  load : ∀ d, of c (s'.load P d) = of c (s.load P d)
  inbox : s'.inbox P c = s.inbox P c

theorem At.same {φ : Phase MsgData MsgData} (h : At P s c φ) (hs : Same P c s s') : At P s' c φ := by
  cases φ with
  | idle =>
    refine ⟨hs.waiting.trans h.1, fun d => ?_, hs.inbox.trans h.2.2⟩
    rw [hs.load]
    exact h.2.1 d
  | sent m =>
    obtain ⟨d, hw, hm, hl, hi⟩ := h
    refine ⟨d, hs.waiting.trans hw, hm, fun d' => ?_, hs.inbox.trans hi⟩
    rw [hs.load]
    exact hl d'
  | answered m r =>
    obtain ⟨d, hw, hr, hl, hi⟩ := h
    refine ⟨d, hs.waiting.trans hw, hr, fun d' => ?_, hs.inbox.trans hi⟩
    rw [hs.load]
    exact hl d'

theorem At.idle_of_waiting {φ : Phase MsgData MsgData} (h : At P s c φ) (hw : s.waiting c = none) : φ = .idle := by
  cases φ with
  | idle => rfl
  | sent m =>
    obtain ⟨d, hd, -⟩ := h
    rw [hw] at hd
    cases hd
  | answered m r =>
    obtain ⟨d, hd, -⟩ := h
    rw [hw] at hd
    cases hd

theorem At.sent_of_load {φ : Phase MsgData MsgData} {l : Multiset MsgData} (h : At P s c φ)
    (hl : of c (s.load P d) = {m} + l) : φ = .sent m ∧ l = 0 ∧ s.waiting c = some (P.pid d) ∧ m.dest = P.pid d ∧
      (∀ d', d' ≠ d → of c (s.load P d') = 0) ∧ s.inbox P c = [] := by
  have hne : of c (s.load P d) ≠ 0 := by
    rw [hl, Multiset.singleton_add]
    exact Multiset.cons_ne_zero
  cases φ with
  | idle => exact absurd (h.2.1 d) hne
  | answered m' r =>
    obtain ⟨-, -, -, hzero, -⟩ := h
    exact absurd (hzero d) hne
  | sent m' =>
    obtain ⟨d0, hw, hm, hload, hi⟩ := h
    by_cases hd : d = d0
    · rw [hload, if_pos hd, Multiset.singleton_add, Multiset.singleton_eq_cons_iff] at hl
      obtain ⟨rfl, hl⟩ := hl
      rw [← hd] at hw hm
      refine ⟨rfl, hl, hw, hm, fun d' hd' => ?_, hi⟩
      rw [hload, if_neg (fun h => hd' (h.trans hd.symm))]
    · rw [hload, if_neg hd] at hne
      exact absurd rfl hne

/-- The invariant: every thread's call is somewhere, only clients have one,
replies went to the thread whose request they answer, from the driver that the
request was sent to, and the drivers have requests they can serve. -/
structure Inv (P : Setup) (p : System × List Event) : Prop where
  fed : Fed P p.1
  client : ∀ c, P.Client c → ∃ φ, Agrees MsgData.ret c p.2 φ ∧ At P p.1 c φ
  caller : ∀ c, p.1.waiting c ≠ none → P.Client c
  ide : IdeReplies (P.pid .hda) p.1.ide.control
  reply : ∀ c m r, .replied c m r ∈ p.2 → c = m.src ∧ r.dest = c ∧ (P.Client c → r.src = m.dest)

theorem Inv.same (hI : Inv P (s, t)) (hF : Fed P s') (hs : ∀ c, P.Client c → Same P c s s')
    (hw : s'.waiting = s.waiting) (hide : IdeReplies (P.pid .hda) s'.ide.control) : Inv P (s', t) := by
  refine ⟨hF, fun c hc => ?_, fun c hc => ?_, hide, hI.reply⟩
  · obtain ⟨φ, hφ, hat⟩ := hI.client c hc
    exact ⟨φ, hφ, hat.same (hs c hc)⟩
  · dsimp only at hc
    rw [hw] at hc
    exact hI.caller c hc

/-! ### Drivers -/

theorem Works.same {o : Answered} (hW : Works P d s s' o) (hc : P.Client c) (ho : of c (asked o) = 0) : Same P c s s' := by
  refine ⟨congrFun hW.waiting c, fun d' => ?_, ?_⟩
  · by_cases hd : d' = d
    · rw [hd, hW.own, of_add, ho, zero_add]
    · rw [hW.others d' hd]
  · unfold inbox
    rw [hW.box c hc.2.2]

theorem same_post_of_ne {dest : ℤ} {data : ℕ → UInt8} (hc : P.Client c) (hm : m.src ≠ c) (hdest : c ≠ dest) :
    Same P c s (s.post P dest m data) := by
  refine ⟨congrFun (waiting_post s dest m data) c, fun d => ?_, ?_⟩
  · rw [load_post, of_add]
    split
    · rw [of_requests hc, of_singleton_of_ne hm]
      exact add_zero _
    · exact add_zero _
  · unfold inbox
    rw [box_post hc.2.2, if_neg hdest]

theorem Same.trans {s'' : System} (h : Same P c s s') (h' : Same P c s' s'') : Same P c s s'' :=
  ⟨h'.waiting.trans h.waiting, fun d => (h'.load d).trans (h.load d), h'.inbox.trans h.inbox⟩

theorem stamp_answer (me ret : ℤ) (m : MsgData) : (m.answer me ret).stamp me m.src = m.answer me ret := by
  unfold MsgData.stamp MsgData.answer
  dsimp only
  rw [ite_self]

/-- A driver's step, with the reply it sends. -/
theorem Inv.deliver {o : Answered} (hI : Inv P (s, t)) (hW : Works P d s s' o)
    (hide : IdeReplies (P.pid .hda) s'.ide.control) :
    Inv P ((System.deliver P d (s', o)).1, t ++ (System.deliver P d (s', o)).2.toList) := by
  cases o with
  | none =>
    unfold System.deliver
    dsimp only
    rw [Option.toList_none, List.append_nil]
    exact hI.same (hI.fed.works hW) (fun c hc => hW.same hc rfl) hW.waiting hide
  | some p =>
    obtain ⟨m, r⟩ := p
    obtain ⟨ret, rfl⟩ := hW.reply m r rfl
    have hF := hI.fed.deliver hW
    unfold System.deliver at hF ⊢
    dsimp only at hF ⊢
    rw [Option.toList_some]
    have hdest : (m.answer (P.pid d) ret).dest = m.src := rfl
    have hsrc : (m.answer (P.pid d) ret).src = P.pid d := rfl
    rw [hdest, stamp_answer] at hF ⊢
    have hcall : ∀ c, P.Client c → c = m.src → Agrees MsgData.ret c t (.sent m) ∧ s.waiting c = some (P.pid d) ∧
        m.dest = P.pid d ∧ (∀ d', of c (s'.load P d') = 0) ∧ s.inbox P c = [] := by
      rintro c hc rfl
      obtain ⟨φ, hφ, hat⟩ := hI.client m.src hc
      have hown := congrArg (of m.src) hW.own
      rw [of_add, asked, of_requests hc, of_singleton rfl] at hown
      obtain ⟨rfl, hrest, hw, hm, hzero, hi⟩ := hat.sent_of_load hown
      refine ⟨hφ, hw, hm, fun d' => ?_, hi⟩
      by_cases hd : d' = d
      · rw [hd]
        exact hrest
      · rw [hW.others d' hd]
        exact hzero d' hd
    refine ⟨hF, fun c hc => ?_, fun c hc => ?_, ?_, fun c m' r' h => ?_⟩
    · by_cases hm : c = m.src
      · obtain ⟨hφ, hw, -, hzero, hi⟩ := hcall c hc hm
        subst hm
        refine ⟨.answered m (m.answer (P.pid d) ret), hφ.reply _, d, ?_, rfl, fun d' => ?_, ?_⟩
        · dsimp only
          rw [waiting_post, hW.waiting]
          exact hw
        · dsimp only
          rw [load_post, of_add, hzero, zero_add]
          split
          · rw [of_requests hc, of_singleton_of_ne (hc.pid_ne d)]
          · rfl
        · unfold inbox at hi ⊢
          dsimp only
          rw [box_post hc.2.2, if_pos rfl, List.filter_append, hW.box _ hc.2.2, hi, List.nil_append]
          exact List.filter_cons_of_pos (P.isDriver_pid d)
      · obtain ⟨φ, hφ, hat⟩ := hI.client c hc
        refine ⟨φ, hφ.other (Ne.symm hm), hat.same ?_⟩
        have hnone : of c (asked (some (m, m.answer (P.pid d) ret))) = 0 := by
          rw [asked, of_requests hc, of_singleton_of_ne (Ne.symm hm)]
        have hmoved := hW.same hc hnone
        exact hmoved.trans (same_post_of_ne hc (hc.pid_ne d) hm)
    · dsimp only at hc
      rw [waiting_post, hW.waiting] at hc
      exact hI.caller c hc
    · dsimp only
      rw [ide_control_post]
      exact hide
    · rw [List.mem_append, List.mem_singleton] at h
      rcases h with h | h
      · exact hI.reply c m' r' h
      · cases h
        exact ⟨rfl, rfl, fun hc => (hcall m.src hc rfl).2.2.1.symm⟩

/-! ### Threads and interrupt handlers -/

theorem Inv.devRw {type reqPid buf offset len : ℤ} {name : String} {data : ℕ → UInt8} {e : Option Event}
    (hI : Inv P (s, t)) (hc : P.Client c) (htype : type = devRead ∨ type = devWrite)
    (hdev : ∀ dev ∈ halGet name P.devices, P.isDriver dev.pid = true)
    (h : s.devRw P type c name reqPid buf offset len data = some (s', e)) : Inv P (s', t ++ e.toList) := by
  have hF := hI.fed.devRw hc htype h
  unfold System.devRw at h
  split at h
  · rename_i hwait
    rw [Option.map_eq_some_iff] at h
    obtain ⟨dev, hget, heq⟩ := h
    cases heq
    rw [Option.toList_some]
    obtain ⟨d, hd⟩ := Setup.exists_of_isDriver (hdev dev hget)
    generalize hmsg : (devRwMsg c type reqPid buf offset len dev).stamp c dev.pid = m at hF
    have hsrc : m.src = c := by
      rw [← hmsg]
      exact ite_self c
    have hdest : m.dest = P.pid d := by
      rw [← hmsg]
      exact hd.symm
    refine ⟨hF, fun c' hc' => ?_, fun c' hc' => ?_, ?_, fun c' m' r' h => ?_⟩
    · obtain ⟨φ, hφ, hat⟩ := hI.client c' hc'
      by_cases hcc : c' = c
      · subst hcc
        obtain rfl := hat.idle_of_waiting hwait
        obtain ⟨-, hzero, hi⟩ := hat
        refine ⟨.sent m, hφ.call m, d, ?_, hdest, fun d' => ?_, ?_⟩
        · exact (Function.update_self c' _ s.waiting).trans (congrArg some hd.symm)
        · have hpost : of c' ((s.post P dev.pid m data).load P d') = if d' = d then {m} else 0 := by
            rw [load_post, of_add, hzero, zero_add, ← hd]
            by_cases hdd : d' = d
            · rw [if_pos hdd, if_pos (congrArg P.pid hdd.symm), of_requests hc', of_singleton hsrc]
            · rw [if_neg hdd, if_neg (fun h => hdd (P.injective h).symm)]
              rfl
          exact hpost
        · have hbox : (s.post P dev.pid m data).inbox P c' = s.inbox P c' := by
            unfold inbox
            rw [box_post hc'.2.2, if_neg (fun h => hc'.pid_ne d (hd.trans h.symm))]
          exact hbox.trans hi
      · refine ⟨φ, hφ.other (Ne.symm hcc), hat.same ?_⟩
        have hpost : Same P c' s (s.post P dev.pid m data) :=
          same_post_of_ne hc' (fun h => hcc (h.symm.trans hsrc)) fun h => hc'.pid_ne d (hd.trans h.symm)
        exact ⟨Function.update_of_ne hcc _ s.waiting, hpost.load, hpost.inbox⟩
    · by_cases hcc : c' = c
      · rw [hcc]
        exact hc
      · dsimp only at hc'
        rw [Function.update_of_ne hcc] at hc'
        exact hI.caller c' hc'
    · have hctl : (s.post P dev.pid m data).ide.control = s.ide.control := ide_control_post s dev.pid m data
      dsimp only
      rw [hctl]
      exact hI.ide
    · rw [List.mem_append, List.mem_singleton] at h
      rcases h with h | h
      · exact hI.reply c' m' r' h
      · cases h
  · cases h

/-- The message a waiting thread receives is the reply to its request, and no
other message of a driver is left. -/
theorem At.receive {φ : Phase MsgData MsgData} {src : ℤ} {rest : List MsgData} (h : At P s c φ)
    (hw : s.waiting c = some src) (hr : Hal.receive src (s.box c) = some (r, rest)) :
    (∃ m, φ = .answered m r) ∧ rest.filter P.fromDriver = [] ∧ ∀ d, of c (s.load P d) = 0 := by
  obtain ⟨hsrc, l₁, l₂, hbox, rfl, -⟩ := takeFirst_eq_some hr
  rw [Bool.or_eq_true, decide_eq_true_iff, decide_eq_true_iff] at hsrc
  have hinbox : ∀ d, src = P.pid d → s.inbox P c = l₁.filter P.fromDriver ++ r :: l₂.filter P.fromDriver := by
    rintro d rfl
    have hrd : P.fromDriver r = true := by
      rcases hsrc with hany | hsrc
      · have hpos := P.positive d
        rw [hany] at hpos
        exact absurd hpos (by decide)
      · unfold Setup.fromDriver
        rw [hsrc]
        exact P.isDriver_pid d
    unfold inbox
    rw [hbox, List.filter_append, List.filter_cons_of_pos hrd]
  cases φ with
  | idle =>
    rw [h.1] at hw
    cases hw
  | sent m =>
    obtain ⟨d, hd, -, -, hi⟩ := h
    rw [hinbox d (Option.some.inj (hw.symm.trans hd))] at hi
    exact absurd hi (List.append_ne_nil_of_right_ne_nil _ (List.cons_ne_nil _ _))
  | answered m x =>
    obtain ⟨d, hd, -, hzero, hi⟩ := h
    rw [hinbox d (Option.some.inj (hw.symm.trans hd)), List.append_eq_singleton_iff] at hi
    rcases hi with ⟨h1, h2⟩ | ⟨-, h2⟩
    · rw [List.cons.injEq] at h2
      refine ⟨⟨m, by rw [h2.1]⟩, ?_, hzero⟩
      rw [List.filter_append, h1, h2.2]
      rfl
    · cases h2

theorem Inv.ret {e : Option Event} (hI : Inv P (s, t)) (h : s.ret c = some (s', e)) : Inv P (s', t ++ e.toList) := by
  unfold System.ret at h
  rw [Option.bind_eq_some_iff] at h
  obtain ⟨src, hwait, h⟩ := h
  rw [Option.map_eq_some_iff] at h
  obtain ⟨⟨x, rest⟩, hrecv, heq⟩ := h
  cases heq
  rw [Option.toList_some]
  have hc : P.Client c := hI.caller c (by dsimp only; rw [hwait]; exact Option.some_ne_none src)
  refine ⟨hI.fed.congr fun d => load_updateBox hc.2.2 rest _ d, fun c' hc' => ?_, fun c' hc' => ?_, hI.ide,
    fun c' m' r' h => ?_⟩
  · obtain ⟨φ, hφ, hat⟩ := hI.client c' hc'
    by_cases hcc : c' = c
    · subst hcc
      obtain ⟨⟨m, rfl⟩, hrest, hzero⟩ := hat.receive hwait hrecv
      refine ⟨.idle, hφ.ret, Function.update_self c' _ s.waiting, fun d' => ?_, ?_⟩
      · rw [load_updateBox hc'.2.2]
        exact hzero d'
      · unfold inbox
        dsimp only
        rw [Function.update_self]
        exact hrest
    · refine ⟨φ, hφ.other (Ne.symm hcc), hat.same ⟨Function.update_of_ne hcc _ s.waiting, fun d => ?_, ?_⟩⟩
      · rw [load_updateBox hc.2.2]
      · unfold inbox
        dsimp only
        rw [Function.update_of_ne hcc]
  · by_cases hcc : c' = c
    · rw [hcc]
      exact hc
    · dsimp only at hc'
      rw [Function.update_of_ne hcc] at hc'
      exact hI.caller c' hc'
  · rw [List.mem_append, List.mem_singleton] at h
    rcases h with h | h
    · exact hI.reply c' m' r' h
    · cases h

theorem same_post {dest : ℤ} {data : ℕ → UInt8} (hc : P.Client c) (hdest : P.isDriver dest = false)
    (hm : dest = P.timer ∨ P.isDriver m.src = false) : Same P c s (s.post P dest m data) := by
  refine ⟨congrFun (waiting_post s dest m data) c, fun d => ?_, ?_⟩
  · rw [load_post, if_neg (Setup.pid_ne hdest d).symm, add_zero]
  · unfold inbox
    rw [box_post hc.2.2]
    split
    · rename_i hcd
      have hsrc : P.fromDriver m = false := hm.resolve_left fun h => hc.2.1 (hcd.trans h)
      rw [List.filter_append, List.filter_cons_of_neg (by rw [hsrc]; exact Bool.false_ne_true)]
      exact List.append_nil _
    · rfl

theorem same_receive {c' src : ℤ} {rest : List MsgData} (hI : Inv P (s, t)) (hc : P.Client c)
    (hc' : P.isDriver c' = false) (hwait : s.waiting c' = none) (h : receive src (s.box c') = some (m, rest)) :
    Same P c s { s with box := Function.update s.box c' rest } := by
  refine ⟨rfl, fun d => ?_, ?_⟩
  · rw [show ({ s with box := Function.update s.box c' rest } : System).load P d = s.load P d from
      load_updateBox hc' rest s.waiting d]
  · by_cases hcc : c = c'
    · subst hcc
      obtain ⟨φ, -, hat⟩ := hI.client c hc
      obtain rfl := hat.idle_of_waiting hwait
      obtain ⟨-, -, hi⟩ := hat
      obtain ⟨-, l₁, l₂, hbox, rfl, -⟩ := takeFirst_eq_some h
      unfold inbox at hi ⊢
      dsimp only
      rw [Function.update_self, hi]
      rw [hbox, List.filter_append, List.append_eq_nil_iff] at hi
      rw [List.filter_append, hi.1, List.nil_append, List.filter_eq_nil_iff]
      intro y hy
      exact (List.filter_eq_nil_iff.mp hi.2) y (List.mem_cons_of_mem m hy)
    · unfold inbox
      dsimp only
      rw [Function.update_of_ne hcc]

theorem same_hardIntr (hc : P.Client c) (type : ℤ) : Same P c s (s.hardIntr P type) :=
  same_post_of_ne hc hc.ne_hardIntr.symm (hc.pid_ne .tty).symm

theorem Inv.hardIntr (hI : Inv P (s, t)) (type : ℤ) : Inv P (s.hardIntr P type, t) := by
  refine hI.same (hI.fed.congr fun d => load_hardIntr _ d) (fun c hc => same_hardIntr hc _) (waiting_post _ _ _ _) ?_
  unfold System.hardIntr
  rw [ide_control_post]
  exact hI.ide

/-- **The invariant is kept** by every step. -/
theorem Inv.step {a : Action} (hI : Inv P (s, t)) (hok : Ok P (s, t) a) (h : s.step P a = some s') :
    Inv P (s', s.record P a t) := by
  unfold System.step at h
  rw [Option.map_eq_some_iff] at h
  obtain ⟨⟨s1, e⟩, hfire, rfl⟩ := h
  unfold record
  rw [hfire, Option.bind_some]
  unfold fire at hfire
  cases a with
  | devRead => exact hI.devRw hok.1 (Or.inl rfl) hok.2 hfire
  | devWrite => exact hI.devRw hok.1 (Or.inr rfl) hok.2 hfire
  | ret => exact hI.ret hfire
  | send me dest m =>
    cases hfire
    rw [Option.toList_none, List.append_nil]
    refine hI.same (hI.fed.post hok.1 _ _) (fun c hc => same_post hc hok.1 hok.2) (waiting_post _ _ _ _) ?_
    rw [ide_control_post]
    exact hI.ide
  | receive c src =>
    dsimp only at hfire
    split at hfire
    · rename_i hwait
      rw [Option.map_eq_some_iff] at hfire
      obtain ⟨⟨m, rest⟩, hrecv, heq⟩ := hfire
      cases heq
      rw [Option.toList_none, List.append_nil]
      refine hI.same (hI.fed.congr fun d => load_updateBox hok rest _ d) (fun c' hc' => ?_) rfl hI.ide
      exact same_receive hI hc' hok hwait hrecv
    · cases hfire
  | write mem =>
    cases hfire
    rw [Option.toList_none, List.append_nil]
    have hload : ∀ d, ({ s with store := { s.store with mem := mem } } : System).load P d = s.load P d :=
      fun d => load_congr rfl rfl (fun _ => rfl) fun _ => rfl
    exact hI.same (hI.fed.congr hload) (fun c hc => ⟨rfl, fun d => congrArg (of c) (hload d), rfl⟩) rfl hI.ide
  | sendKeymsg =>
    cases hfire
    rw [Option.toList_none, List.append_nil]
    exact hI.hardIntr _
  | sendUpdatemsg =>
    cases hfire
    rw [Option.toList_none, List.append_nil]
    exact hI.hardIntr _
  | timeIntr =>
    rw [Option.map_eq_some_iff] at hfire
    obtain ⟨s2, hstep, heq⟩ := hfire
    cases heq
    obtain ⟨hW, hide⟩ := ide_works hI.ide hstep (Or.inl ⟨Or.inl rfl, rfl⟩)
    exact hI.deliver hW hide
  | ideIntr =>
    rw [Option.map_eq_some_iff] at hfire
    obtain ⟨s2, hstep, heq⟩ := hfire
    cases heq
    obtain ⟨hW, hide⟩ := ide_works hI.ide hstep (Or.inl ⟨Or.inr rfl, rfl⟩)
    exact hI.deliver hW hide
  | plain k =>
    rw [Option.map_eq_some_iff] at hfire
    obtain ⟨⟨s2, o⟩, hstep, heq⟩ := hfire
    have hW := plain_works hstep
    have hkeep := hI.deliver hW (hW.ide (by simp) ▸ hI.ide)
    rw [heq] at hkeep
    exact hkeep
  | tty x =>
    rw [Option.map_eq_some_iff] at hfire
    obtain ⟨⟨s2, o⟩, hstep, heq⟩ := hfire
    have hW := ttyd_works hI.fed.held hstep
    have hkeep := hI.deliver hW (hW.ide (by simp) ▸ hI.ide)
    rw [heq] at hkeep
    exact hkeep
  | hda =>
    rw [Option.map_eq_some_iff] at hfire
    obtain ⟨s2, hstep, heq⟩ := hfire
    obtain ⟨hW, hide⟩ := ide_works hI.ide hstep (Or.inr ⟨rfl, rfl⟩)
    have hkeep := hI.deliver hW hide
    rw [heq] at hkeep
    exact hkeep

theorem inv_boot (P : Setup) (store : Store) (disk : ℕ → Ide.Sector) (cell : ℤ → Cell) :
    Inv P (boot store disk cell, []) := by
  refine ⟨fed_boot P store disk cell, fun c hc => ⟨.idle, agrees_nil MsgData.ret c, rfl, fun d => ?_, rfl⟩, fun c hc => absurd rfl hc, trivial,
    fun c m r h => absurd h List.not_mem_nil⟩
  cases d with
  | plain k => rfl
  | hda => rfl
  | tty => rfl

theorem At.pending {φ : Phase MsgData MsgData} (h : At P s c φ) : s.pending P c = φ.unanswered := by
  unfold System.pending
  cases φ with
  | idle => simp [h.2.1, Driver.all, Phase.unanswered]
  | answered m r =>
    obtain ⟨-, -, -, hzero, -⟩ := h
    simp [hzero, Driver.all, Phase.unanswered]
  | sent m =>
    obtain ⟨d, -, -, hload, -⟩ := h
    simp only [hload, Driver.all, Phase.unanswered]
    cases d with
    | plain k => cases k <;> rfl
    | hda => rfl
    | tty => rfl

theorem At.inbox {φ : Phase MsgData MsgData} (h : At P s c φ) : s.inbox P c = φ.unread := by
  cases φ with
  | idle => exact h.2.2
  | sent m =>
    obtain ⟨-, -, -, -, hi⟩ := h
    exact hi
  | answered m r =>
    obtain ⟨-, -, -, -, hi⟩ := h
    exact hi

theorem At.waiting {φ : Phase MsgData MsgData} (h : At P s c φ) :
    (φ.unanswered).length + (φ.unread).length = if s.waiting c = none then 0 else 1 := by
  cases φ with
  | idle =>
    rw [if_pos h.1]
    rfl
  | sent m =>
    obtain ⟨d, hw, -⟩ := h
    rw [if_neg (by rw [hw]; exact Option.some_ne_none _)]
    rfl
  | answered m r =>
    obtain ⟨d, hw, -⟩ := h
    rw [if_neg (by rw [hw]; exact Option.some_ne_none _)]
    rfl

theorem At.returns {φ : Phase MsgData MsgData} (h : At P s c φ) (hi : s.inbox P c ≠ []) :
    ∃ s' v, s.fire P (.ret c) = some (s', some (.returned c v)) := by
  cases φ with
  | idle => exact absurd h.2.2 hi
  | sent m =>
    obtain ⟨-, -, -, -, hnil⟩ := h
    exact absurd hnil hi
  | answered m r =>
    obtain ⟨d, hw, hsrc, -, hinbox⟩ := h
    have hmem : r ∈ s.box c := by
      have hr : r ∈ s.inbox P c := by
        rw [hinbox]
        exact List.mem_singleton_self r
      exact List.mem_of_mem_filter hr
    unfold fire System.ret
    dsimp only
    rw [hw, Option.bind_some]
    cases hrecv : Hal.receive (P.pid d) (s.box c) with
    | none =>
      have hno := takeFirst_eq_none hrecv r hmem
      rw [Bool.or_eq_false_iff, decide_eq_false_iff_not, decide_eq_false_iff_not] at hno
      exact absurd hsrc hno.2
    | some y => exact ⟨_, _, rfl⟩

/-- **Requests to drivers get their own replies.** Any number of threads call
`dev_read` and `dev_write`, and threads, drivers and interrupt handlers take
their steps in any order. For every thread, the requests it has sent are those
that were answered, each once and in order, and those the drivers still have;
what its calls have returned is what the replies say, one after the other, but
for those still in its mailbox; and a reply goes to the thread whose request
it answers, from the driver of the device. A thread that is in `dev_rw` has one
request with a driver or one reply in its mailbox, with which the call can
return; one that is not has none of either. Drivers do send the replies to the
requests they have done their work for. -/
theorem own_reply {store : Store} {disk : ℕ → Ide.Sector} {cell : ℤ → Cell} {p : System × List Event}
    (h : Reach (traceStep P) (Ok P) (boot store disk cell, []) p) :
    Answering P p.1 ∧ (∀ c m r, .replied c m r ∈ p.2 → c = m.src ∧ r.dest = m.src) ∧
      ∀ c, P.Client c →
        (∃ l : List MsgData, p.1.pending P c = l ∧ calls c p.2 = (replies c p.2).map Prod.fst ++ l) ∧
        (replies c p.2).map (fun q => q.2.ret) = returns c p.2 ++ (p.1.inbox P c).map MsgData.ret ∧
        (∀ m r, (m, r) ∈ replies c p.2 → m.src = c ∧ r.dest = c ∧ r.src = m.dest) ∧
        (p.1.pending P c).card + (p.1.inbox P c).length = (if p.1.waiting c = none then 0 else 1) ∧
        (p.1.inbox P c ≠ [] → ∃ s' v, p.1.fire P (.ret c) = some (s', some (.returned c v))) := by
  have hI : Inv P p := by
    refine h.invariant (inv_boot P store disk cell) fun p a p' hI hok hs => ?_
    obtain ⟨hs, ht⟩ := withHistory_eq_some.mp hs
    have hkeep := hI.step hok hs
    rw [← ht] at hkeep
    exact hkeep
  refine ⟨hI.fed.answering hI.ide, fun c m r hr => ?_, fun c hc => ?_⟩
  · obtain ⟨hcm, hdest, -⟩ := hI.reply c m r hr
    exact ⟨hcm, hdest.trans hcm⟩
  · obtain ⟨φ, hφ, hat⟩ := hI.client c hc
    refine ⟨⟨φ.unanswered, hat.pending, hφ.calls⟩, ?_, fun m r hr => ?_, ?_, hat.returns⟩
    · rw [hat.inbox]
      exact hφ.returns
    · obtain ⟨hcm, hdest, hsrc⟩ := hI.reply c m r (mem_of_mem_replies hr)
      exact ⟨hcm.symm, hdest, hsrc hc⟩
    · rw [hat.pending, hat.inbox, Multiset.coe_card]
      exact hat.waiting

/-- The pids that `init_driver` gives. -/
def bootPid : Driver → ℤ
  | .tty => 2
  | .hda => 7
  | .plain .mem => 8
  | .plain .kmem => 9
  | .plain .null => 10
  | .plain .zero => 11
  | .plain .random => 12
  | .plain .ram => 13

theorem bootPid_injective : Function.Injective bootPid := by
  have hall : ∀ d ∈ Driver.all, ∀ e ∈ Driver.all, bootPid d = bootPid e → d = e := by decide
  exact fun d e => hall d (Driver.mem_all d) e (Driver.mem_all e)

/-- What `init_driver` fixes, with `file` at address 0. -/
def bootSetup : Setup where
  pid := bootPid
  timer := 1
  file := 0
  injective := bootPid_injective
  positive := by
    have hall : ∀ d ∈ Driver.all, 0 < bootPid d := by decide
    exact fun d => hall d (Driver.mem_all d)
  timer_ne := by
    have hall : ∀ d ∈ Driver.all, bootPid d ≠ 1 := by decide
    exact fun d => hall d (Driver.mem_all d)

/-- Two threads read from different devices, and are answered in the other
order: each call returns what its device says. -/
theorem own_reply_two : ∃ p, Reach (traceStep bootSetup) (Ok bootSetup)
    (boot ⟨fun _ => 0, 0⟩ (fun _ _ => 0) fun _ => blank, []) p ∧
    returns 20 p.2 = [5] ∧ returns 21 p.2 = [0] ∧ p.1.inbox bootSetup 20 = [] := by
  have h : ∃ p, Reach (traceStep bootSetup) (Ok bootSetup)
      (boot ⟨fun _ => 0, 0⟩ (fun _ _ => 0) fun _ => blank, []) p ∧
      (p.1.waiting 20 = none ∧ (returns 20 p.2 = [5] ∧ returns 21 p.2 = [0])) :=
    Reach.exists_of_exec
      [.devRead 20 "zero" 20 4096 0 5 (fun _ => 0), .devRead 21 "null" 21 8192 0 5 (fun _ => 0), .sendKeymsg,
        .plain .null, .plain .null, .plain .zero, .plain .zero, .ret 20, .ret 21] (by decide +kernel)
  obtain ⟨p, hr, hwait, h20, h21⟩ := h
  obtain ⟨-, -, hclient⟩ := own_reply hr
  obtain ⟨-, -, -, hnone, -⟩ := hclient 20 (by decide)
  rw [if_pos hwait] at hnone
  exact ⟨p, hr, h20, h21, List.length_eq_zero_iff.mp (by omega)⟩

end System
end Hal
end NanoOS
