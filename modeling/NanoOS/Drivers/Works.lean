/-
# What the drivers do with their requests

A driver has the requests in its mailbox, the one it is serving and, for the
terminal driver, those that wait for a line. What a step of a driver does to
them is said once (`Works`): it keeps them, or answers one of them. The
requests a driver is given are ones it can serve (`Fed`), so that it does
answer those it has done its work for (`Answering`).

Key definitions: `Works`, `Fed`, `Answering`.
Key theorems: `plain_works`, `ttyd_works`, `ide_works`, `Fed.works`, `Fed.answering`.
-/
import NanoOS.Drivers.System

namespace NanoOS
namespace Hal

open Queue Tty

variable {P : Setup} {s s' : System} {c : ℤ} {d : Driver} {m r : MsgData}

namespace Setup

theorem isDriver_pid (P : Setup) (d : Driver) : P.isDriver (P.pid d) = true :=
  List.any_eq_true.mpr ⟨d, Driver.mem_all d, decide_eq_true rfl⟩

theorem exists_of_isDriver {x : ℤ} (h : P.isDriver x = true) : ∃ d, P.pid d = x := by
  obtain ⟨d, -, hd⟩ := List.any_eq_true.mp h
  exact ⟨d, of_decide_eq_true hd⟩

theorem pid_ne {x : ℤ} (h : P.isDriver x = false) (d : Driver) : P.pid d ≠ x := by
  rintro rfl
  rw [isDriver_pid] at h
  cases h

theorem Client.pid_ne (hc : P.Client c) (d : Driver) : P.pid d ≠ c := Setup.pid_ne hc.2.2 d

theorem Client.ne_hardIntr (hc : P.Client c) : c ≠ msgHardIntr := by
  have := hc.1
  unfold msgHardIntr
  omega

end Setup

namespace System

/-! ### Requests of a thread -/

theorem of_add (c : ℤ) (l l' : Multiset MsgData) : of c (l + l') = of c l + of c l' := Multiset.filter_add _ l l'

theorem of_cons (hm : m.src = c) (l : Multiset MsgData) : of c (m ::ₘ l) = m ::ₘ of c l :=
  Multiset.filter_cons_of_pos l hm

theorem of_cons_of_ne (hm : m.src ≠ c) (l : Multiset MsgData) : of c (m ::ₘ l) = of c l :=
  Multiset.filter_cons_of_neg l hm

theorem of_singleton (hm : m.src = c) : of c {m} = {m} := of_cons hm 0

theorem of_singleton_of_ne (hm : m.src ≠ c) : of c {m} = 0 := of_cons_of_ne hm 0

theorem of_requests (hc : P.Client c) (m : MsgData) : of c (requests [m]) = of c {m} := by
  by_cases hsrc : m.fromThread
  · rw [requests_of_fromThread hsrc]
  · have hm : m.src = msgHardIntr := not_not.mp hsrc
    rw [requests_of_hardIntr hm]
    exact (of_singleton_of_ne fun h => hc.ne_hardIntr (h.symm.trans hm)).symm

theorem fromThread_of_mem_requests {l : List MsgData} (h : m ∈ requests l) : m.fromThread :=
  of_decide_eq_true (List.mem_filter.mp (Multiset.mem_coe.mp h)).2

/-! ### Messages that arrive -/

theorem load_post (s : System) (dest : ℤ) (m : MsgData) (data : ℕ → UInt8) (d : Driver) :
    (s.post P dest m data).load P d = s.load P d + if dest = P.pid d then requests [m] else 0 := by
  unfold post
  by_cases hhda : dest = P.pid .hda
  · rw [if_pos hhda]
    by_cases hd : d = .hda
    · rw [hd, if_pos hhda]
      unfold load
      dsimp only
      rw [List.map_append, List.map_append, List.map_append, requests_append, requests_append, requests_append]
      exact add_right_comm _ _ _
    · rw [if_neg (fun h => hd (P.injective (h.symm.trans hhda))), add_zero]
      cases d with
      | plain k => rfl
      | tty => rfl
      | hda => exact absurd rfl hd
  · rw [if_neg hhda]
    by_cases hd : dest = P.pid d
    · rw [if_pos hd, hd]
      cases d with
      | plain k =>
        unfold load
        dsimp only
        rw [Function.update_self, requests_append, requests_append, requests_append]
        exact add_right_comm _ _ _
      | tty =>
        unfold load
        dsimp only
        rw [Function.update_self, requests_append, requests_append, requests_append, add_right_comm (requests _),
          add_right_comm]
      | hda => exact absurd hd hhda
    · rw [if_neg hd, add_zero]
      cases d with
      | plain k =>
        unfold load
        dsimp only
        rw [Function.update_of_ne (Ne.symm hd)]
      | tty =>
        unfold load
        dsimp only
        rw [Function.update_of_ne (Ne.symm hd)]
      | hda => rfl

theorem waiting_post (s : System) (dest : ℤ) (m : MsgData) (data : ℕ → UInt8) :
    (s.post P dest m data).waiting = s.waiting := by
  unfold post
  split
  · rfl
  · rfl

theorem ide_control_post (s : System) (dest : ℤ) (m : MsgData) (data : ℕ → UInt8) :
    (s.post P dest m data).ide.control = s.ide.control := by
  unfold post
  split
  · rfl
  · rfl

theorem load_hardIntr (type : ℤ) (d : Driver) : (s.hardIntr P type).load P d = s.load P d := by
  unfold hardIntr
  rw [load_post, requests_of_hardIntr rfl, ite_self, add_zero]

theorem box_post (hc : P.isDriver c = false) (s : System) (dest : ℤ) (m : MsgData) (data : ℕ → UInt8) :
    (s.post P dest m data).box c = if c = dest then s.box c ++ [m] else s.box c := by
  unfold post
  by_cases hhda : dest = P.pid .hda
  · rw [if_pos hhda, if_neg (fun h => Setup.pid_ne hc .hda (hhda.symm.trans h.symm))]
  · rw [if_neg hhda]
    by_cases hd : c = dest
    · rw [if_pos hd, hd]
      exact Function.update_self dest _ s.box
    · rw [if_neg hd]
      exact Function.update_of_ne hd _ s.box

/-! ### What a driver does -/

/-- The request that is answered. -/
def asked : Answered → Multiset MsgData
  | none => 0
  | some (m, _) => requests [m]

/-- In a step of driver `d`, before its reply is sent, no thread's mailbox
changes; the driver keeps the requests it has, or it answers one and keeps
the others. -/
structure Works (P : Setup) (d : Driver) (s s' : System) (o : Answered) : Prop where
  waiting : s'.waiting = s.waiting
  box : ∀ c, P.isDriver c = false → s'.box c = s.box c
  ide : d ≠ .hda → s'.ide = s.ide
  others : ∀ d', d' ≠ d → s'.load P d' = s.load P d'
  own : s.load P d = asked o + s'.load P d
  reply : ∀ m r, o = some (m, r) → ∃ ret, r = m.answer (P.pid d) ret

theorem load_plain (k : Plain) : s.load P (.plain k) =
    requests (s.box (P.pid (.plain k)) ++ (s.hand (.plain k)).toList) := rfl

theorem load_tty : s.load P .tty = requests (s.box (P.pid .tty) ++ (s.hand .tty).toList) + s.tty.held := rfl

theorem load_hda : s.load P .hda = requests ((s.ide.box ++ s.ide.service).map Ide.Request.msg) := rfl

theorem load_congr (hbox : s'.box (P.pid d) = s.box (P.pid d)) (hhand : s'.hand d = s.hand d)
    (htty : d = .tty → s'.tty = s.tty) (hide : d = .hda → s'.ide = s.ide) : s'.load P d = s.load P d := by
  cases d with
  | plain k => rw [load_plain, load_plain, hbox, hhand]
  | tty => rw [load_tty, load_tty, hbox, hhand, htty rfl]
  | hda => rw [load_hda, load_hda, hide rfl]

/-- A change to the mailbox of a thread is nothing to the drivers. -/
theorem load_updateBox (hc : P.isDriver c = false) (box : List MsgData) (waiting : ℤ → Option ℤ) (d : Driver) :
    ({ s with box := Function.update s.box c box, waiting := waiting } : System).load P d = s.load P d :=
  load_congr (Function.update_of_ne (Setup.pid_ne hc d) _ s.box) rfl (fun _ => rfl) fun _ => rfl

theorem requests_receive {src : ℤ} {box rest : List MsgData} (h : receive src box = some (m, rest)) :
    requests box = requests rest + requests [m] := by
  obtain ⟨-, l₁, l₂, rfl, rfl, -⟩ := takeFirst_eq_some h
  rw [requests_append, requests_append, ← List.singleton_append, requests_append, add_comm (requests [m]), add_assoc]

theorem take_works (hd : d ≠ .hda) (hhand : s.hand d = none) (h : s.take P d = some s') : Works P d s s' none := by
  unfold take at h
  rw [Option.map_eq_some_iff] at h
  obtain ⟨⟨m, rest⟩, hrecv, rfl⟩ := h
  have hmoved : requests (s.box (P.pid d) ++ (s.hand d).toList) = requests (rest ++ [m]) := by
    rw [hhand, Option.toList_none, List.append_nil, requests_receive hrecv, requests_append]
  refine ⟨rfl, fun c hc => ?_, fun _ => rfl, fun d' hd' => ?_, ?_, fun m r h => by cases h⟩
  · exact Function.update_of_ne (Setup.pid_ne hc d).symm _ s.box
  · refine load_congr ?_ ?_ (fun _ => rfl) fun _ => rfl
    · exact Function.update_of_ne (fun h => hd' (P.injective h)) _ s.box
    · exact Function.update_of_ne hd' _ s.hand
  · rw [asked, zero_add]
    cases d with
    | plain k =>
      rw [load_plain, load_plain, hmoved]
      dsimp only
      rw [Function.update_self, Function.update_self]
      rfl
    | tty =>
      rw [load_tty, load_tty, hmoved]
      dsimp only
      rw [Function.update_self, Function.update_self]
      rfl
    | hda => exact absurd rfl hd

/-- A driver without interrupts. -/
theorem plain_works {k : Plain} {o : Answered} (h : s.plain P k = some (s', o)) : Works P (.plain k) s s' o := by
  unfold plain at h
  split at h
  · rename_i hhand
    rw [Option.map_eq_some_iff] at h
    obtain ⟨s1, htake, heq⟩ := h
    cases heq
    exact take_works (by simp) hhand htake
  · rename_i m hhand
    split at h
    · rename_i r store hrun
      cases h
      refine ⟨rfl, fun _ _ => rfl, fun _ => rfl, fun d' hd' => ?_, ?_, fun m' r' h => ?_⟩
      · exact load_congr rfl (Function.update_of_ne hd' _ s.hand) (fun _ => rfl) fun _ => rfl
      · rw [load_plain, load_plain, hhand, requests_append, Option.toList_some, add_comm]
        dsimp only
        rw [Function.update_self, Option.toList_none, List.append_nil]
        rfl
      · cases h
        exact Plain.thread_ok hrun
    · cases h

/-- The terminal driver. -/
theorem ttyd_works {x : Input} {o : Answered} (hthread : ∀ y ∈ s.tty.held, y.fromThread)
    (h : s.ttyd P x = some (s', o)) : Works P .tty s s' o := by
  unfold ttyd at h
  split at h
  · rename_i hhand
    rw [Option.map_eq_some_iff] at h
    obtain ⟨s1, htake, heq⟩ := h
    cases heq
    exact take_works (by simp) hhand htake
  · rename_i m hhand
    split at h
    · rename_i t o hrun
      cases h
      have hheld := Ttyd.ttyd_held hrun
      refine ⟨rfl, fun _ _ => rfl, fun _ => rfl, fun d' hd' => ?_, ?_, fun m' r' h => ?_⟩
      · exact load_congr rfl (Function.update_of_ne hd' _ s.hand) (fun h => absurd h hd') fun _ => rfl
      · rw [load_tty, load_tty, hhand, requests_append, Option.toList_some, add_assoc]
        dsimp only
        rw [Function.update_self, Option.toList_none, List.append_nil]
        cases o with
        | none =>
          have heq : t.held = requests [m] + s.tty.held := hheld
          rw [heq]
          exact (zero_add _).symm
        | some rep =>
          -- the request that is answered was among those that waited, or was the message itself
          have hreq : (s.tty.request m).fromThread := by
            have hmem : s.tty.request m ∈ requests [m] + s.tty.held := by
              rw [hheld.1]
              exact Multiset.mem_cons_self _ _
            rcases Multiset.mem_add.mp hmem with hmem | hmem
            · exact fromThread_of_mem_requests hmem
            · exact hthread _ hmem
          rw [hheld.1, Multiset.add_cons, ← Multiset.singleton_add, Option.map_some, asked,
            requests_of_fromThread hreq]
      · rw [Option.map_eq_some_iff] at h
        obtain ⟨rep, rfl, heq⟩ := h
        cases heq
        exact hheld.2
    · cases h

/-- What is in the hands of the disk driver will be answered. -/
def IdeReplies (ide : ℤ) : Ide.Control → Prop
  | .busy r t => t.Replies (Ide.reply ide r.msg)
  | .wait r _ k => ∀ d, (k d).Replies (Ide.reply ide r.msg)
  | _ => True

/-- The requests the disk driver has. -/
def ideLoad (i : Ide.Machine) : Multiset MsgData := requests ((i.box ++ i.service).map Ide.Request.msg)

theorem ideLoad_intr (i : Ide.Machine) (ide type : ℤ) :
    ideLoad { i with box := i.box ++ [Ide.intr ide type] } = ideLoad i := by
  have hintr : requests [(Ide.intr ide type).msg] = 0 := requests_of_hardIntr rfl
  unfold ideLoad
  dsimp only
  rw [List.map_append, List.map_append, List.map_singleton, List.map_append, requests_append, requests_append,
    requests_append, hintr, add_zero]
  rfl

/-- The messages of the driver's handlers leave its requests as they are. -/
theorem ideLoad_handler {i i' : Ide.Machine} {ide : ℤ} {a : Ide.Machine.Action} (ha : a = .tick ∨ a = .irq)
    (h : i.step ide a = some i') : ideLoad i' = ideLoad i ∧ i'.control = i.control := by
  rcases ha with rfl | rfl
  · cases h
    unfold Ide.Machine.timeIntr
    split
    · exact ⟨ideLoad_intr i ide _, rfl⟩
    · exact ⟨rfl, rfl⟩
  · unfold Ide.Machine.step Ide.Machine.irq14 at h
    rw [Option.map_eq_some_iff] at h
    obtain ⟨c, -, rfl⟩ := h
    exact ⟨ideLoad_intr i ide _, rfl⟩

/-- In its wait loop the driver takes messages of the handlers only. -/
theorem ideLoad_wait {i : Ide.Machine} {x : Ide.Request} {box : List Ide.Request}
    (h : takeFirst Ide.Request.hardIntr i.box = some (x, box)) :
    requests (box.map Ide.Request.msg) = requests (i.box.map Ide.Request.msg) := by
  obtain ⟨hx, l₁, l₂, hbox, rfl, -⟩ := takeFirst_eq_some h
  have hintr : requests [x.msg] = 0 := requests_of_hardIntr (of_decide_eq_true hx)
  rw [hbox, List.map_append, List.map_append, List.map_cons, requests_append, requests_append,
    ← List.singleton_append, requests_append, hintr, zero_add]

/-- The disk driver keeps its requests, or answers the one in its hands. -/
theorem ide_driver {i i' : Ide.Machine} (hI : IdeReplies (P.pid .hda) s.ide.control) (hi : s.ide = i)
    (h : i.driver (P.pid .hda) = some i') (hp : ∀ p, i'.control ≠ .panic p) :
    ideLoad i = asked s.ideAnswer + ideLoad i' ∧ IdeReplies (P.pid .hda) i'.control := by
  unfold Ide.Machine.driver at h
  unfold ideAnswer
  rw [hi] at hI ⊢
  unfold ideLoad Ide.Machine.service
  split at h
  · rename_i hloop
    split at h
    · cases h
    · rename_i r box hbox
      split at h
      · rename_i t hstart
        cases h
        rw [hloop, hbox]
        refine ⟨?_, Ide.start_replies hstart⟩
        rw [asked, zero_add]
        dsimp only
        rw [List.append_nil, List.map_append, List.map_singleton, List.map_cons, requests_append,
          ← List.singleton_append, requests_append, add_comm]
      · cases h
        exact absurd rfl (hp _)
  · rename_i r o hdone
    cases h
    rw [hdone] at hI ⊢
    refine ⟨?_, trivial⟩
    have hreply : o.reply = Ide.reply (P.pid .hda) r.msg := hI
    dsimp only
    rw [List.append_nil, List.map_append, List.map_singleton, requests_append, add_comm, hreply]
    unfold Ide.reply
    split
    · rename_i hsrc
      rw [requests_of_hardIntr hsrc]
      rfl
    · rfl
  · rename_i r cmd d k hbusy
    split at h
    · cases h
      rw [hbusy] at hI ⊢
      exact ⟨(zero_add _).symm, hI⟩
    · cases h
  · rename_i r cmd k hwait
    split at h
    · cases h
    · rename_i x box htake
      have hload : requests (box.map Ide.Request.msg) = requests (i.box.map Ide.Request.msg) := ideLoad_wait htake
      rw [hwait] at hI ⊢
      split at h
      · cases h
        refine ⟨?_, hI _⟩
        dsimp only
        rw [List.map_append, List.map_append, requests_append, requests_append, hload]
        exact (zero_add _).symm
      · cases h
        refine ⟨?_, hI⟩
        dsimp only
        rw [List.map_append, List.map_append, requests_append, requests_append, hload]
        exact (zero_add _).symm
  · cases h

/-- The disk driver and its interrupt handlers. -/
theorem ide_works {a : Ide.Machine.Action} {o : Answered} (hI : IdeReplies (P.pid .hda) s.ide.control)
    (h : s.ideStep P a = some s') (ha : (a = .tick ∨ a = .irq) ∧ o = none ∨ a = .driver ∧ o = s.ideAnswer) :
    Works P .hda s s' o ∧ IdeReplies (P.pid .hda) s'.ide.control := by
  unfold ideStep at h
  rw [Option.bind_eq_some_iff] at h
  obtain ⟨i, hstep, h⟩ := h
  obtain ⟨hp, rfl⟩ : (∀ p, i.control ≠ .panic p) ∧ { s with ide := i } = s' := by
    split at h
    · cases h
    · rename_i hp
      exact ⟨hp, Option.some.inj h⟩
  have hothers : ∀ d', d' ≠ .hda → ({ s with ide := i } : System).load P d' = s.load P d' :=
    fun d' hd' => load_congr rfl rfl (fun _ => rfl) fun h => absurd h hd'
  rcases ha with ⟨ha, rfl⟩ | ⟨rfl, rfl⟩
  · obtain ⟨hload, hcontrol⟩ := ideLoad_handler ha hstep
    refine ⟨⟨rfl, fun _ _ => rfl, fun h => absurd rfl h, hothers, ?_, fun m r h => by cases h⟩, ?_⟩
    · rw [asked, zero_add]
      exact hload.symm
    · dsimp only
      rw [hcontrol]
      exact hI
  · obtain ⟨hown, hcontrol⟩ := ide_driver hI rfl hstep hp
    refine ⟨⟨rfl, fun _ _ => rfl, fun h => absurd rfl h, hothers, hown, fun m r h => ?_⟩, hcontrol⟩
    unfold ideAnswer at h
    split at h
    · rename_i x o hdone
      rw [hdone] at hI
      have hreply : o.reply = Ide.reply (P.pid .hda) x.msg := hI
      rw [hreply, Option.map_eq_some_iff] at h
      obtain ⟨y, hy, heq⟩ := h
      cases heq
      unfold Ide.reply at hy
      split at hy
      · cases hy
      · cases hy
        exact ⟨x.msg.len, rfl⟩
    · cases h

/-! ### What the drivers are given -/

/-- A request that a driver can serve. -/
structure Good (P : Setup) (x : MsgData) : Prop where
  client : P.Client x.src
  type : x.type = devRead ∨ x.type = devWrite
  devId : 0 ≤ x.devId ∧ x.devId < nrTty

/-- The requests the drivers have are ones they can serve. -/
def Fed (P : Setup) (s : System) : Prop := ∀ d, ∀ x ∈ s.load P d, Good P x

theorem fed_boot (P : Setup) (store : Store) (disk : ℕ → Ide.Sector) (cell : ℤ → Cell) :
    Fed P (boot store disk cell) := by
  intro d x hx
  cases d with
  | plain k => cases hx
  | hda => cases hx
  | tty => cases hx

theorem Fed.congr (hF : Fed P s) (hload : ∀ d, s'.load P d = s.load P d) : Fed P s' := by
  intro d x hx
  rw [hload] at hx
  exact hF d x hx

theorem Fed.held (hF : Fed P s) : ∀ y ∈ s.tty.held, y.fromThread := fun y hy =>
  (hF .tty y (Multiset.mem_add.mpr (Or.inr hy))).client.ne_hardIntr

theorem Fed.works {o : Answered} (hF : Fed P s) (hW : Works P d s s' o) : Fed P s' := by
  intro d' x hx
  by_cases hd : d' = d
  · subst hd
    apply hF
    rw [hW.own]
    exact Multiset.mem_add.mpr (Or.inr hx)
  · rw [hW.others d' hd] at hx
    exact hF d' x hx

theorem Fed.post (hF : Fed P s) {dest : ℤ} (hdest : P.isDriver dest = false) (m : MsgData) (data : ℕ → UInt8) :
    Fed P (s.post P dest m data) := by
  refine hF.congr fun d => ?_
  rw [load_post, if_neg (Setup.pid_ne hdest d).symm, add_zero]

theorem Fed.deliver {o : Answered} (hF : Fed P s) (hW : Works P d s s' o) : Fed P (System.deliver P d (s', o)).1 := by
  cases o with
  | none => exact hF.works hW
  | some p =>
    obtain ⟨m, r⟩ := p
    obtain ⟨ret, rfl⟩ := hW.reply m r rfl
    refine (hF.works hW).post ?_ _ _
    change P.isDriver m.src = false
    by_cases hm : m.fromThread
    · have hmem : m ∈ s.load P d := by
        rw [hW.own, asked, requests_of_fromThread hm]
        exact Multiset.mem_add.mpr (Or.inl (Multiset.mem_singleton_self m))
      exact (hF d m hmem).client.2.2
    · rw [Bool.eq_false_iff]
      intro hdriver
      obtain ⟨d', hd'⟩ := Setup.exists_of_isDriver hdriver
      have hpos := P.positive d'
      rw [hd', not_not.mp hm] at hpos
      exact absurd hpos (by decide)

theorem devId_of_halGet {name : String} {dev : Dev} (h : halGet name P.devices = some dev) :
    0 ≤ dev.devId ∧ dev.devId < nrTty := by
  have hmem := List.mem_of_find?_eq_some h
  have hdev : ∀ x ∈ P.devices, 0 ≤ x.devId ∧ x.devId < nrTty := by
    unfold Setup.devices
    simp [nrTty]
  exact hdev dev hmem

theorem Fed.devRw {type reqPid buf offset len : ℤ} {name : String} {data : ℕ → UInt8} {e : Option Event}
    (hF : Fed P s) (hc : P.Client c) (htype : type = devRead ∨ type = devWrite)
    (h : s.devRw P type c name reqPid buf offset len data = some (s', e)) : Fed P s' := by
  unfold System.devRw at h
  split at h
  · rw [Option.map_eq_some_iff] at h
    obtain ⟨dev, hget, heq⟩ := h
    cases heq
    intro d x hx
    have hload : x ∈ (s.post P dev.pid ((devRwMsg c type reqPid buf offset len dev).stamp c dev.pid) data).load P d := hx
    rw [load_post, Multiset.mem_add] at hload
    rcases hload with hload | hload
    · exact hF d x hload
    · split at hload
      · have hx := List.mem_singleton.mp (List.mem_of_mem_filter (Multiset.mem_coe.mp hload))
        rw [hx]
        refine ⟨?_, htype, devId_of_halGet hget⟩
        change P.Client (if c = 0 then c else c)
        rw [ite_self]
        exact hc
      · cases hload
  · cases h

/-! ### The replies are sent -/

/-- The drivers answer the requests they have done their work for: those
without interrupts each request they take; the terminal driver those to write,
and those to read when there is a line; and the disk driver those whose
transfer is done. -/
structure Answering (P : Setup) (s : System) : Prop where
  plain : ∀ k m, s.hand (.plain k) = some m → m.fromThread →
    ∃ s' r, s.fire P (.plain k) = some (s', some (.replied m.src m r))
  write : ∀ x m, s.hand .tty = some m → m.fromThread → m.type = devWrite →
    ∃ s' r, s.fire P (.tty x) = some (s', some (.replied m.src m r))
  read : ∀ x m (j : Fin nrTty), s.hand .tty = some m → m.fromThread → m.type = devRead → m.devId = j →
    (s.tty.ttys j).f ≠ (s.tty.ttys j).r → ∃ s' r, s.fire P (.tty x) = some (s', some (.replied m.src m r))
  hda : ∀ x o, s.ide.control = .busy x (.done o) → x.msg.fromThread →
    ∃ s' r, s.fire P .hda = some (s', some (.replied x.msg.src x.msg r))

theorem mem_load_of_hand (hhand : s.hand d = some m) (hm : m.fromThread) (hd : d ≠ .hda) : m ∈ s.load P d := by
  have hmem : ∀ l, m ∈ requests (l ++ [m]) := by
    intro l
    rw [requests_append, requests_of_fromThread hm]
    exact Multiset.mem_add.mpr (Or.inr (Multiset.mem_singleton_self m))
  cases d with
  | plain k =>
    rw [load_plain, hhand]
    exact hmem _
  | tty =>
    rw [load_tty, hhand]
    exact Multiset.mem_add.mpr (Or.inl (hmem _))
  | hda => exact absurd rfl hd

theorem Fed.answering (hF : Fed P s) (hide : IdeReplies (P.pid .hda) s.ide.control) : Answering P s := by
  refine ⟨fun k m hhand hm => ?_, fun x m hhand hm htype => ?_, fun x m j hhand hm htype hj hline => ?_,
    fun x o hdone hm => ?_⟩
  · have hgood := hF _ m (mem_load_of_hand hhand hm (by simp))
    obtain ⟨ret, store, hrun⟩ := Plain.thread_answers k P.file (P.pid (.plain k)) s.store hm hgood.type
    unfold fire plain
    dsimp only
    rw [hhand]
    dsimp only
    rw [hrun]
    exact ⟨_, _, rfl⟩
  · have hgood := hF _ m (mem_load_of_hand hhand hm (by simp))
    obtain ⟨t, hrun⟩ := Ttyd.ttyd_write s.tty (P.pid .tty) x hm htype hgood.devId
    unfold fire ttyd
    dsimp only
    rw [hhand]
    dsimp only
    rw [hrun]
    unfold Ttyd.request
    dsimp only
    rw [if_neg hm]
    exact ⟨_, _, rfl⟩
  · obtain ⟨t, data, hrun⟩ := Ttyd.ttyd_read s.tty (P.pid .tty) x hm htype hj hline
    unfold fire ttyd
    dsimp only
    rw [hhand]
    dsimp only
    rw [hrun]
    unfold Ttyd.request
    dsimp only
    rw [if_neg hm]
    exact ⟨_, _, rfl⟩
  · rw [hdone] at hide
    have hreply : o.reply = Ide.reply (P.pid .hda) x.msg := hide
    unfold Ide.reply at hreply
    rw [if_neg hm] at hreply
    unfold fire ideStep ideAnswer Ide.Machine.step Ide.Machine.driver
    dsimp only
    rw [hdone]
    dsimp only
    rw [hreply]
    exact ⟨_, _, rfl⟩

end System
end Hal
end NanoOS
