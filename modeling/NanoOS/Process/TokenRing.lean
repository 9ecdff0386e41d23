/-
# The ring of A, B, C, D and E

Five test threads of `util.c` pass a message round. A prints its letter and
sends to E; E looks who a message is from and sends one to the next in the
ring; B, C and D first wait for E's message and then go on as A does. Between
two letters a thread counts `x` up to the next multiple of 10000000.

A step is what a thread does up to its next `send`, `receive` or `printk`.
Mailboxes are queues, as in `NanoOS.Drivers.System`. What the threads do not
initialise may hold anything at the start.

The token is where the turn is: with a thread, on the way to E, with E, or on
the way back. `Inv` says for each place where everybody is, and every step
leaves the token where it is or moves it one place on.

Key definitions: `Pids`, `State`, `step`, `Place`, `Inv`, `tokens`.
Key theorems: `Inv.playerStep`, `Inv.echoStep`, `token_ring`.
-/
import NanoOS.Drivers.System

namespace NanoOS
namespace TokenRing

open Trans Queue

/-- The threads that print letters. -/
inductive Player
  | A
  | B
  | C
  | D
  deriving DecidableEq

namespace Player

/-- Who is after it. -/
def next : Player → Player
  | A => B
  | B => C
  | C => D
  | D => A

/-- Its number. -/
def idx : Player → ℕ
  | A => 0
  | B => 1
  | C => 2
  | D => 3

/-- What it prints. -/
def letter : Player → Char
  | A => 'a'
  | B => 'b'
  | C => 'c'
  | D => 'd'

/-- What E prints when a message of it has come. -/
def mark : Player → Char
  | A => '|'
  | B => '/'
  | C => '-'
  | D => '\\'

end Player

/-- `pidA` to `pidD` and `pidE`: different threads. -/
structure Pids where
  pid : Player → ℤ
  pidE : ℤ
  injective : Function.Injective pid
  pid_ne : ∀ p, pid p ≠ pidE
  positive : ∀ p, 0 < pid p
  positiveE : 0 < pidE

/-- Where a player is in its code. -/
inductive Pc
  | start
  /-- the `receive` before the loop -/
  | recvFirst
  /-- `if(x % 10000000 == 0)` -/
  | test
  | print
  | send
  | recv
  /-- `x ++` -/
  | incr
  deriving DecidableEq

/-- A player and its variables. -/
structure Thread where
  pc : Pc
  m1 : MsgData
  m2 : MsgData
  x : ℤ

/-- Where E is in its code. -/
inductive EchoPc
  | start
  | recv
  /-- the tests of `m1.src` -/
  | choose
  | print
  | send
  deriving DecidableEq

/-- E and its variables. -/
structure Echo where
  pc : EchoPc
  m1 : MsgData
  m2 : MsgData
  c : Char

/-- The threads, the mailboxes by pid, and the letters printed by A to D. -/
structure State where
  thread : Player → Thread
  e : Echo
  box : ℤ → List MsgData
  out : List Char

/-- Who steps. -/
inductive Act
  | player (p : Player)
  | e

variable (P : Pids)

namespace State

/-- `send`: the message arrives at the end of the mailbox. -/
def post (dest : ℤ) (m : MsgData) (s : State) : State :=
  { s with box := Function.update s.box dest (s.box dest ++ [m]) }

/-- What becomes of a player. -/
def setThread (p : Player) (t : Thread) (s : State) : State :=
  { s with thread := Function.update s.thread p t }

/-- A player steps. Only D sets `x` after its first `receive`. -/
def playerStep (p : Player) (s : State) : Option State :=
  let t := s.thread p
  match t.pc with
  | .start =>
    let t := { t with m1 := { t.m1 with src := P.pid p } }
    if p = .A then some (s.setThread p { t with x := 0, pc := .test })
    else if p = .D then some (s.setThread p { t with pc := .recvFirst })
    else some (s.setThread p { t with x := 0, pc := .recvFirst })
  | .recvFirst => do
    let (m, rest) ← Hal.receive P.pidE (s.box (P.pid p))
    let t := { t with m2 := m, pc := .test, x := if p = .D then 0 else t.x }
    return { s with box := Function.update s.box (P.pid p) rest }.setThread p t
  | .test =>
    if t.x.tmod 10000000 = 0 then some (s.setThread p { t with pc := .print })
    else some (s.setThread p { t with pc := .incr })
  | .print => some ({ s with out := s.out ++ [p.letter] }.setThread p { t with pc := .send })
  | .send =>
    let m := t.m1.stamp (P.pid p) P.pidE
    some ((s.post P.pidE m).setThread p { t with m1 := m, pc := .recv })
  | .recv => do
    let (m, rest) ← Hal.receive P.pidE (s.box (P.pid p))
    return { s with box := Function.update s.box (P.pid p) rest }.setThread p { t with m2 := m, pc := .incr }
  | .incr => some (s.setThread p { t with x := (t.x + 1).bmod 4294967296, pc := .test })

/-- The player with the pid, by the tests of E. -/
def whose (src : ℤ) : Option Player :=
  if src = P.pid .A then some .A
  else if src = P.pid .B then some .B
  else if src = P.pid .C then some .C
  else if src = P.pid .D then some .D
  else none -- assert(0)

/-- E steps. -/
def echoStep (s : State) : Option State :=
  match s.e.pc with
  | .start => some { s with e := { s.e with m2 := { s.e.m2 with src := P.pidE }, pc := .recv } }
  | .recv => do
    let (m, rest) ← Hal.receive anySrc (s.box P.pidE)
    return { s with box := Function.update s.box P.pidE rest, e := { s.e with m1 := m, pc := .choose } }
  | .choose => do
    let p ← whose P s.e.m1.src
    return { s with e := { s.e with c := p.mark, m2 := { s.e.m2 with dest := P.pid p.next }, pc := .print } }
  | .print => some { s with e := { s.e with pc := .send } }
  | .send =>
    let m := s.e.m2.stamp P.pidE s.e.m2.dest
    some { s.post s.e.m2.dest m with e := { s.e with m2 := m, pc := .recv } }

/-- A step; `none` if the thread waits for a message, or fails an assertion. -/
def step (s : State) : Act → Option State
  | .player p => s.playerStep P p
  | .e => s.echoStep P

/-- E is about to fail its `assert(0)`. -/
def Asserts (s : State) : Prop := s.e.pc = .choose ∧ whose P s.e.m1.src = none

/-- Nobody has run yet. -/
structure Initial (s : State) : Prop where
  thread : ∀ p, (s.thread p).pc = .start
  e : s.e.pc = .start
  box : ∀ q, s.box q = []
  out : s.out = []

end State

/-! ### Where the token is -/

/-- The places of the token. -/
inductive Place
  /-- `p` has the turn -/
  | turn (p : Player)
  /-- a message of `p` is on the way to E -/
  | toE (p : Player)
  /-- E has taken the message of `p` -/
  | atE (p : Player)
  /-- E's message is on the way to `p` -/
  | fromE (p : Player)

/-- The player has the turn; A starts with it. -/
def HasTurn (p : Player) (pc : Pc) : Prop :=
  pc = .test ∨ pc = .print ∨ pc = .send ∨ pc = .incr ∨ (pc = .start ∧ p = .A)

instance (p : Player) (pc : Pc) : Decidable (HasTurn p pc) := inferInstanceAs (Decidable (_ ∨ _))

/-- E has the turn. -/
def Echo.HasTurn (e : Echo) : Prop := e.pc = .choose ∨ e.pc = .print ∨ e.pc = .send

instance (e : Echo) : Decidable e.HasTurn := inferInstanceAs (Decidable (_ ∨ _))

/-- What the mailboxes hold. -/
def Boxes (box : ℤ → List MsgData) : Place → Prop
  | .turn _ | .atE _ => ∀ q, box q = []
  | .toE p => ∃ m, m.src = P.pid p ∧ box = Function.update (fun _ => []) P.pidE [m]
  | .fromE p => ∃ m, m.src = P.pidE ∧ box = Function.update (fun _ => []) (P.pid p) [m]

/-- Where E is. -/
def EchoAt (e : Echo) : Place → Prop
  | .atE p => e.HasTurn ∧ (e.pc = .choose → e.m1.src = P.pid p) ∧
      (e.pc ≠ .choose → e.m2.dest = P.pid p.next)
  | _ => ¬ e.HasTurn

/-- Whose letter comes next. -/
def due (s : State) : Place → Player
  | .turn p => if (s.thread p).pc = .send then p.next else p
  | .toE p | .atE p => p.next
  | .fromE p => p

/-- Everybody is where the place of the token says. -/
structure Inv (s : State) (pl : Place) : Prop where
  src1 : ∀ p, (s.thread p).pc ≠ .start → (s.thread p).m1.src = P.pid p
  src2 : s.e.pc ≠ .start → s.e.m2.src = P.pidE
  players : ∀ p, HasTurn p (s.thread p).pc ↔ pl = .turn p
  echo : EchoAt P s.e pl
  boxes : Boxes P s.box pl
  letters : s.out = (List.range s.out.length).map fun k => ['a', 'b', 'c', 'd'].getD (k % 4) 'a'
  phase : s.out.length % 4 = (due s pl).idx

variable {P} {s s' : State} {pl : Place} {p : Player}

theorem Player.idx_next (p : Player) : p.next.idx = (p.idx + 1) % 4 := by
  cases p <;> rfl

theorem Player.letter_idx (p : Player) : p.letter = ['a', 'b', 'c', 'd'].getD p.idx 'a' := by
  cases p <;> rfl

theorem whose_pid (p : Player) : State.whose P (P.pid p) = some p := by
  have hne : ∀ q, p ≠ q → P.pid p ≠ P.pid q := fun q h he => h (P.injective he)
  unfold State.whose
  cases p with
  | A => rw [if_pos rfl]
  | B => rw [if_neg (hne .A (by decide)), if_pos rfl]
  | C => rw [if_neg (hne .A (by decide)), if_neg (hne .B (by decide)), if_pos rfl]
  | D => rw [if_neg (hne .A (by decide)), if_neg (hne .B (by decide)), if_neg (hne .C (by decide)), if_pos rfl]

theorem stamp_src {me dest : ℤ} {m : MsgData} (h : 0 < m.src) : (m.stamp me dest).src = m.src :=
  if_neg (Int.ne_of_gt h)

theorem post_empty {box : ℤ → List MsgData} (h : ∀ q, box q = []) (dest : ℤ) (m : MsgData) :
    Function.update box dest (box dest ++ [m]) = Function.update (fun _ => []) dest [m] := by
  have hbox : box = fun _ => [] := funext h
  rw [hbox]
  rfl

theorem take_single {box : ℤ → List MsgData} {q : ℤ} {m : MsgData}
    (h : box = Function.update (fun _ => []) q [m]) : ∀ q', Function.update box q [] q' = [] := by
  intro q'
  rw [h]
  by_cases hq : q' = q
  · rw [hq, Function.update_self]
  · rw [Function.update_of_ne hq, Function.update_of_ne hq]

theorem Inv.receives (hI : Inv P s pl) {m : MsgData} {rest : List MsgData}
    (h : Hal.receive P.pidE (s.box (P.pid p)) = some (m, rest)) :
    pl = .fromE p ∧ ∀ q, Function.update s.box (P.pid p) rest q = [] := by
  have hbox := hI.boxes
  -- an empty mailbox gives no message
  have hempty : s.box (P.pid p) ≠ [] := fun he => by
    rw [he] at h
    cases h
  cases pl with
  | turn q => exact absurd (hbox _) hempty
  | atE q => exact absurd (hbox _) hempty
  | toE q =>
    obtain ⟨x, -, hbox⟩ := hbox
    rw [hbox, Function.update_of_ne (P.pid_ne p)] at hempty
    exact absurd rfl hempty
  | fromE q =>
    obtain ⟨x, hx, hbox⟩ := hbox
    have hpq : P.pid p = P.pid q := by
      by_contra hne
      rw [hbox, Function.update_of_ne hne] at hempty
      exact hempty rfl
    obtain rfl : p = q := P.injective hpq
    refine ⟨rfl, ?_⟩
    have hrest : rest = [] := by
      rw [hbox, Function.update_self] at h
      obtain ⟨-, l₁, l₂, hl, hr, -⟩ := takeFirst_eq_some h
      have hlen := congrArg List.length hl
      simp only [List.length_append, List.length_cons, List.length_nil] at hlen
      rw [hr]
      exact List.eq_nil_of_length_eq_zero (by rw [List.length_append]; omega)
    rw [hrest]
    exact take_single hbox

/-! ### The players -/

theorem due_self (s : State) (p : Player) (t : Thread) (box : ℤ → List MsgData) (out : List Char) :
    due { s with thread := Function.update s.thread p t, box := box, out := out } (.turn p) =
      if t.pc = .send then p.next else p := by
  simp only [due, Function.update_self]

theorem due_other (s : State) {q : Player} (h : q ≠ p) (t : Thread) (box : ℤ → List MsgData) (out : List Char) :
    due { s with thread := Function.update s.thread p t, box := box, out := out } (.turn q) =
      due s (.turn q) := by
  simp only [due, Function.update_of_ne h]

theorem Inv.move (hI : Inv P s pl) {t : Thread} {box : ℤ → List MsgData} {out : List Char} {pl' : Place}
    (hsrc : t.m1.src = P.pid p) (hturn : HasTurn p t.pc ↔ pl' = .turn p)
    (hothers : ∀ q, q ≠ p → (pl = .turn q ↔ pl' = .turn q)) (hecho : EchoAt P s.e pl')
    (hboxes : Boxes P box pl')
    (hletters : out = (List.range out.length).map fun k => ['a', 'b', 'c', 'd'].getD (k % 4) 'a')
    (hphase : out.length % 4 =
      (due { s with thread := Function.update s.thread p t, box := box, out := out } pl').idx) :
    Inv P { s with thread := Function.update s.thread p t, box := box, out := out } pl' := by
  refine ⟨fun q hq => ?_, hI.src2, fun q => ?_, hecho, hboxes, hletters, hphase⟩
  · by_cases hqp : q = p
    · rw [hqp]
      dsimp only
      rw [Function.update_self]
      exact hsrc
    · dsimp only at hq ⊢
      rw [Function.update_of_ne hqp] at hq ⊢
      exact hI.src1 q hq
  · by_cases hqp : q = p
    · rw [hqp]
      dsimp only
      rw [Function.update_self]
      exact hturn
    · dsimp only
      rw [Function.update_of_ne hqp]
      exact (hI.players q).trans (hothers q hqp)

theorem Inv.keep (hI : Inv P s (.turn p)) {t : Thread} (hsrc : t.m1.src = P.pid p) (hturn : HasTurn p t.pc)
    (hold : (s.thread p).pc ≠ .send) (hnew : t.pc ≠ .send) : Inv P (s.setThread p t) (.turn p) := by
  refine hI.move hsrc (iff_of_true hturn rfl) (fun q _ => Iff.rfl) hI.echo hI.boxes hI.letters ?_
  have hphase := hI.phase
  unfold due at hphase
  dsimp only at hphase
  rw [if_neg hold] at hphase
  rw [due_self, if_neg hnew]
  exact hphase

theorem Inv.take (hI : Inv P s pl) {m : MsgData} {rest : List MsgData} {t : Thread}
    (h : Hal.receive P.pidE (s.box (P.pid p)) = some (m, rest)) (hsrc : t.m1.src = P.pid p)
    (hturn : HasTurn p t.pc) (hnew : t.pc ≠ .send) :
    Inv P (State.setThread p t { s with box := Function.update s.box (P.pid p) rest }) (.turn p) := by
  obtain ⟨rfl, hempty⟩ := hI.receives h
  refine hI.move hsrc (iff_of_true hturn rfl) (fun q hq => ?_) hI.echo hempty hI.letters ?_
  · constructor
    · intro he
      cases he
    · intro he
      cases he
      exact absurd rfl hq
  · rw [due_self, if_neg hnew]
    exact hI.phase

theorem letters_snoc {out : List Char}
    (h : out = (List.range out.length).map fun k => ['a', 'b', 'c', 'd'].getD (k % 4) 'a')
    (hp : out.length % 4 = p.idx) : out ++ [p.letter] =
      (List.range (out ++ [p.letter]).length).map fun k => ['a', 'b', 'c', 'd'].getD (k % 4) 'a' := by
  rw [List.length_append, List.length_singleton, List.range_succ, List.map_append, ← h, List.map_singleton, hp,
    p.letter_idx]

theorem Inv.await (hI : Inv P s pl) {t : Thread} (hno : pl ≠ .turn p) (hsrc : t.m1.src = P.pid p)
    (hpc : t.pc = .recvFirst) : Inv P (s.setThread p t) pl := by
  refine hI.move hsrc (iff_of_false (by rw [hpc]; simp [HasTurn]) hno) (fun q _ => Iff.rfl) hI.echo hI.boxes
    hI.letters ?_
  have hphase := hI.phase
  cases pl with
  | turn q =>
    have hqp : q ≠ p := fun he => hno (by rw [he])
    rw [due_other s hqp]
    exact hphase
  | _ => exact hphase

theorem Inv.print (hI : Inv P s (.turn p)) {t : Thread} (hsrc : t.m1.src = P.pid p)
    (hold : (s.thread p).pc ≠ .send) (hnew : t.pc = .send) :
    Inv P (State.setThread p t { s with out := s.out ++ [p.letter] }) (.turn p) := by
  have hphase := hI.phase
  unfold due at hphase
  dsimp only at hphase
  rw [if_neg hold] at hphase
  refine hI.move hsrc (iff_of_true (Or.inr (Or.inr (Or.inl hnew))) rfl) (fun q _ => Iff.rfl) hI.echo hI.boxes
    (letters_snoc hI.letters hphase) ?_
  rw [due_self, if_pos hnew, p.idx_next, List.length_append, List.length_singleton]
  omega

theorem Inv.give (hI : Inv P s (.turn p)) {t : Thread} {m : MsgData} (hm : m.src = P.pid p)
    (hsrc : t.m1.src = P.pid p) (hold : (s.thread p).pc = .send) (hnew : t.pc = .recv) :
    Inv P ((s.post P.pidE m).setThread p t) (.toE p) := by
  refine hI.move hsrc (iff_of_false (by rw [hnew]; simp [HasTurn]) (by simp)) (fun q hq => ?_) hI.echo
    ⟨m, hm, post_empty hI.boxes _ _⟩ hI.letters ?_
  · constructor
    · intro he
      cases he
      exact absurd rfl hq
    · intro he
      cases he
  · have hphase := hI.phase
    unfold due at hphase ⊢
    dsimp only at hphase ⊢
    rw [if_pos hold] at hphase
    exact hphase

/-- **A step of a player.** -/
theorem Inv.playerStep (hI : Inv P s pl) (hs : s.playerStep P p = some s') : ∃ pl', Inv P s' pl' := by
  -- who is past its start has its pid in `m1`, and who is not waiting has the turn
  have hsrc := hI.src1 p
  have hplace : HasTurn p (s.thread p).pc → pl = .turn p := (hI.players p).mp
  unfold State.playerStep at hs
  cases hpc : (s.thread p).pc with
  | start =>
    simp only [hpc] at hs
    by_cases hA : p = .A
    · rw [if_pos hA, Option.some.injEq] at hs
      subst hs
      obtain rfl := hplace (Or.inr (Or.inr (Or.inr (Or.inr ⟨hpc, hA⟩))))
      exact ⟨_, hI.keep rfl (Or.inl rfl) (by rw [hpc]; decide) (by simp)⟩
    · -- B, C and D do not have the turn, and do not get it
      have hno : pl ≠ .turn p := by
        intro he
        have := (hI.players p).mpr he
        rw [hpc] at this
        simp [HasTurn, hA] at this
      rw [if_neg hA] at hs
      split at hs
      · rw [Option.some.injEq] at hs
        subst hs
        exact ⟨_, hI.await hno rfl rfl⟩
      · rw [Option.some.injEq] at hs
        subst hs
        exact ⟨_, hI.await hno rfl rfl⟩
  | recvFirst =>
    rw [hpc] at hsrc
    simp only [hpc] at hs
    obtain ⟨⟨m, rest⟩, hm, hs⟩ := Option.bind_eq_some_iff.mp hs
    cases hs
    exact ⟨_, hI.take hm (hsrc (by decide)) (Or.inl rfl) (by simp)⟩
  | test =>
    obtain rfl := hplace (Or.inl hpc)
    rw [hpc] at hsrc
    simp only [hpc] at hs
    split at hs
    · rw [Option.some.injEq] at hs
      subst hs
      exact ⟨_, hI.keep (hsrc (by decide)) (Or.inr (Or.inl rfl)) (by rw [hpc]; decide) (by simp)⟩
    · rw [Option.some.injEq] at hs
      subst hs
      exact ⟨_, hI.keep (hsrc (by decide)) (Or.inr (Or.inr (Or.inr (Or.inl rfl)))) (by rw [hpc]; decide)
        (by simp)⟩
  | print =>
    obtain rfl := hplace (Or.inr (Or.inl hpc))
    rw [hpc] at hsrc
    simp only [hpc, Option.some.injEq] at hs
    subst hs
    exact ⟨_, hI.print (hsrc (by decide)) (by rw [hpc]; decide) rfl⟩
  | send =>
    obtain rfl := hplace (Or.inr (Or.inr (Or.inl hpc)))
    rw [hpc] at hsrc
    simp only [hpc, Option.some.injEq] at hs
    subst hs
    have hm : ((s.thread p).m1.stamp (P.pid p) P.pidE).src = P.pid p := by
      rw [stamp_src (by rw [hsrc (by decide)]; exact P.positive p), hsrc (by decide)]
    exact ⟨_, hI.give hm hm hpc rfl⟩
  | recv =>
    rw [hpc] at hsrc
    simp only [hpc] at hs
    obtain ⟨⟨m, rest⟩, hm, hs⟩ := Option.bind_eq_some_iff.mp hs
    cases hs
    exact ⟨_, hI.take hm (hsrc (by decide)) (Or.inr (Or.inr (Or.inr (Or.inl rfl)))) (by simp)⟩
  | incr =>
    obtain rfl := hplace (Or.inr (Or.inr (Or.inr (Or.inl hpc))))
    rw [hpc] at hsrc
    simp only [hpc, Option.some.injEq] at hs
    subst hs
    exact ⟨_, hI.keep (hsrc (by decide)) (Or.inl rfl) (by rw [hpc]; decide) (by simp)⟩

/-! ### E -/

theorem Inv.echoMove (hI : Inv P s pl) {e : Echo} {box : ℤ → List MsgData} {pl' : Place}
    (hsrc : e.m2.src = P.pidE) (hturn : ∀ q, pl = .turn q ↔ pl' = .turn q) (hecho : EchoAt P e pl')
    (hboxes : Boxes P box pl') (hdue : due s pl = due s pl') : Inv P { s with e := e, box := box } pl' := by
  refine ⟨hI.src1, fun _ => hsrc, fun q => (hI.players q).trans (hturn q), hecho, hboxes, hI.letters, ?_⟩
  have hphase := hI.phase
  rw [hdue] at hphase
  cases pl' with
  | _ => exact hphase

theorem Inv.atE_of_hasTurn (hI : Inv P s pl) (h : s.e.HasTurn) : ∃ p, pl = .atE p := by
  have hecho := hI.echo
  cases pl with
  | atE p => exact ⟨p, rfl⟩
  | _ => exact absurd h hecho

theorem Inv.echoReceives (hI : Inv P s pl) {m : MsgData} {rest : List MsgData}
    (h : Hal.receive anySrc (s.box P.pidE) = some (m, rest)) :
    ∃ p, pl = .toE p ∧ m.src = P.pid p ∧ ∀ q, Function.update s.box P.pidE rest q = [] := by
  have hbox := hI.boxes
  have hempty : s.box P.pidE ≠ [] := fun he => by
    rw [he] at h
    cases h
  cases pl with
  | turn q => exact absurd (hbox _) hempty
  | atE q => exact absurd (hbox _) hempty
  | fromE q =>
    obtain ⟨x, -, hbox⟩ := hbox
    rw [hbox, Function.update_of_ne (P.pid_ne q).symm] at hempty
    exact absurd rfl hempty
  | toE q =>
    obtain ⟨x, hx, hbox⟩ := hbox
    rw [hbox, Function.update_self] at h
    have htake : x = m ∧ ([] : List MsgData) = rest := by
      simpa [Hal.receive, takeFirst] using h
    obtain ⟨rfl, rfl⟩ := htake
    exact ⟨q, rfl, hx, take_single hbox⟩

/-- **A step of E.** -/
theorem Inv.echoStep (hI : Inv P s pl) (hs : s.echoStep P = some s') : ∃ pl', Inv P s' pl' := by
  have hsrc := hI.src2
  unfold State.echoStep at hs
  cases hpc : s.e.pc with
  | start =>
    simp only [hpc, Option.some.injEq] at hs
    subst hs
    have hno : ∀ p, pl ≠ .atE p := by
      rintro p rfl
      have := hI.echo.1
      simp [Echo.HasTurn, hpc] at this
    refine ⟨pl, hI.echoMove rfl (fun q => Iff.rfl) ?_ hI.boxes rfl⟩
    cases pl with
    | atE p => exact absurd rfl (hno p)
    | _ => simp [EchoAt, Echo.HasTurn]
  | recv =>
    rw [hpc] at hsrc
    simp only [hpc] at hs
    obtain ⟨⟨m, rest⟩, hm, hs⟩ := Option.bind_eq_some_iff.mp hs
    cases hs
    obtain ⟨p, rfl, hmsrc, hempty⟩ := hI.echoReceives hm
    refine ⟨.atE p, hI.echoMove (hsrc (by decide)) (fun q => by simp) ?_ hempty rfl⟩
    exact ⟨Or.inl rfl, fun _ => hmsrc, fun h => absurd rfl h⟩
  | choose =>
    rw [hpc] at hsrc
    obtain ⟨p, rfl⟩ := hI.atE_of_hasTurn (Or.inl hpc)
    simp only [hpc] at hs
    rw [hI.echo.2.1 hpc, whose_pid] at hs
    cases hs
    refine ⟨.atE p, hI.echoMove (hsrc (by decide)) (fun q => Iff.rfl) ?_ hI.boxes rfl⟩
    exact ⟨Or.inr (Or.inl rfl), fun h => absurd h (by simp), fun _ => rfl⟩
  | print =>
    rw [hpc] at hsrc
    obtain ⟨p, rfl⟩ := hI.atE_of_hasTurn (Or.inr (Or.inl hpc))
    simp only [hpc, Option.some.injEq] at hs
    subst hs
    refine ⟨.atE p, hI.echoMove (hsrc (by decide)) (fun q => Iff.rfl) ?_ hI.boxes rfl⟩
    exact ⟨Or.inr (Or.inr rfl), fun h => absurd h (by simp), fun _ => hI.echo.2.2 (by rw [hpc]; decide)⟩
  | send =>
    rw [hpc] at hsrc
    obtain ⟨p, rfl⟩ := hI.atE_of_hasTurn (Or.inr (Or.inr hpc))
    simp only [hpc, Option.some.injEq] at hs
    subst hs
    have hdest : s.e.m2.dest = P.pid p.next := hI.echo.2.2 (by rw [hpc]; decide)
    have hm : (s.e.m2.stamp P.pidE s.e.m2.dest).src = P.pidE := by
      rw [stamp_src (by rw [hsrc (by decide)]; exact P.positiveE), hsrc (by decide)]
    refine ⟨.fromE p.next, hI.echoMove hm (fun q => by simp) (by simp [EchoAt, Echo.HasTurn])
      ⟨_, hm, ?_⟩ rfl⟩
    rw [hdest]
    exact post_empty hI.boxes _ _

/-! ### Every interleaving -/

theorem State.Initial.inv (h : s.Initial) : Inv P s (.turn .A) := by
  refine ⟨fun p hp => absurd (h.thread p) hp, fun he => absurd h.e he, fun p => ?_, ?_, h.box, ?_, ?_⟩
  · rw [h.thread p]
    simp [HasTurn, eq_comm]
  · simp [EchoAt, Echo.HasTurn, h.e]
  · rw [h.out]
    rfl
  · rw [h.out, due, h.thread, if_neg (by decide)]
    rfl

/-- The tokens: messages in flight, and threads that have the turn. -/
def tokens (P : Pids) (s : State) : ℕ :=
  ([Player.A, .B, .C, .D].map fun p =>
    (s.box (P.pid p)).length + if HasTurn p (s.thread p).pc then 1 else 0).sum +
  ((s.box P.pidE).length + if s.e.HasTurn then 1 else 0)

/-- How many messages a mailbox holds. -/
def Place.inBox (P : Pids) : Place → ℤ → ℕ
  | .turn _, _ | .atE _, _ => 0
  | .toE _, q => if q = P.pidE then 1 else 0
  | .fromE p, q => if q = P.pid p then 1 else 0

/-- How often a player has the turn. -/
def Place.turnOf : Place → Player → ℕ
  | .turn q, p => if p = q then 1 else 0
  | _, _ => 0

/-- How often E has it. -/
def Place.turnOfE : Place → ℕ
  | .atE _ => 1
  | _ => 0

theorem Inv.length_box (hI : Inv P s pl) (q : ℤ) : (s.box q).length = pl.inBox P q := by
  have hbox := hI.boxes
  cases pl with
  | turn p => rw [hbox q]; rfl
  | atE p => rw [hbox q]; rfl
  | toE p =>
    obtain ⟨m, -, hbox⟩ := hbox
    rw [hbox, Function.update_apply, Place.inBox]
    split <;> rfl
  | fromE p =>
    obtain ⟨m, -, hbox⟩ := hbox
    rw [hbox, Function.update_apply, Place.inBox]
    split <;> rfl

theorem Inv.turnOf_eq (hI : Inv P s pl) (p : Player) :
    (if HasTurn p (s.thread p).pc then 1 else 0) = pl.turnOf p := by
  have h := hI.players p
  cases pl with
  | turn q =>
    by_cases hpq : p = q
    · rw [if_pos (h.mpr (by rw [hpq])), Place.turnOf, if_pos hpq]
    · rw [if_neg fun ht => hpq (Place.turn.inj (h.mp ht)).symm, Place.turnOf, if_neg hpq]
  | _ => exact if_neg fun ht => by cases h.mp ht

theorem Inv.turnOfE_eq (hI : Inv P s pl) : (if s.e.HasTurn then 1 else 0) = pl.turnOfE := by
  have h := hI.echo
  cases pl with
  | atE p => exact if_pos h.1
  | _ => exact if_neg h

theorem Inv.tokens_eq (hI : Inv P s pl) : tokens P s = 1 := by
  have hE : ∀ p, ¬ P.pidE = P.pid p := fun p h => P.pid_ne p h.symm
  unfold tokens
  simp only [hI.turnOf_eq, hI.turnOfE_eq, hI.length_box]
  cases pl with
  | turn p => cases p <;> rfl
  | atE p => rfl
  | toE p => simp [Place.inBox, Place.turnOf, Place.turnOfE, P.pid_ne]
  | fromE p => cases p <;> simp [Place.inBox, Place.turnOf, Place.turnOfE, hE, P.injective.eq_iff]

/-- **The ring.** In every interleaving of the five threads, the letters come
out in the order a, b, c, d, a, ...; there is exactly one token; E never fails
its assertion; and no mailbox holds more than one message, which is one its
owner's `receive` takes. -/
theorem token_ring (P : Pids) (s₀ s : State) (h0 : s₀.Initial)
    (hr : Reach (State.step P) (fun _ _ => True) s₀ s) :
    s.out = ((List.range s.out.length).map fun k => ['a', 'b', 'c', 'd'].getD (k % 4) 'a') ∧
    tokens P s = 1 ∧ ¬ s.Asserts P ∧ (∀ q, (s.box q).length ≤ 1) ∧
    (∀ p, ∀ m ∈ s.box (P.pid p), Hal.receive P.pidE (s.box (P.pid p)) = some (m, [])) ∧
    (∀ m ∈ s.box P.pidE, Hal.receive anySrc (s.box P.pidE) = some (m, [])) := by
  have hinv : ∃ pl, Inv P s pl := by
    refine hr.invariant (I := fun s => ∃ pl, Inv P s pl) ⟨.turn .A, h0.inv⟩ ?_
    rintro s a s' ⟨pl, hI⟩ - hs
    cases a with
    | player p => exact hI.playerStep hs
    | e => exact hI.echoStep hs
  obtain ⟨pl, hI⟩ := hinv
  refine ⟨hI.letters, hI.tokens_eq, ?_, fun q => ?_, fun p m hm => ?_, fun m hm => ?_⟩
  · rintro ⟨hpc, hnone⟩
    obtain ⟨p, rfl⟩ := hI.atE_of_hasTurn (Or.inl hpc)
    rw [hI.echo.2.1 hpc, whose_pid] at hnone
    cases hnone
  · rw [hI.length_box q]
    cases pl with
    | turn p => exact Nat.zero_le 1
    | atE p => exact Nat.zero_le 1
    | toE p => rw [Place.inBox]; split <;> omega
    | fromE p => rw [Place.inBox]; split <;> omega
  · have hbox := hI.boxes
    cases pl with
    | turn q => rw [hbox] at hm; cases hm
    | atE q => rw [hbox] at hm; cases hm
    | toE q =>
      obtain ⟨x, -, hbox⟩ := hbox
      rw [hbox, Function.update_of_ne (P.pid_ne p)] at hm
      cases hm
    | fromE q =>
      obtain ⟨x, hx, hbox⟩ := hbox
      by_cases hpq : P.pid p = P.pid q
      · rw [hbox, hpq, Function.update_self, List.mem_singleton] at hm
        rw [hbox, hpq, Function.update_self, hm]
        simp [Hal.receive, takeFirst, hx]
      · rw [hbox, Function.update_of_ne hpq] at hm
        cases hm
  · have hbox := hI.boxes
    cases pl with
    | turn q => rw [hbox] at hm; cases hm
    | atE q => rw [hbox] at hm; cases hm
    | fromE q =>
      obtain ⟨x, -, hbox⟩ := hbox
      rw [hbox, Function.update_of_ne (P.pid_ne q).symm] at hm
      cases hm
    | toE q =>
      obtain ⟨x, hx, hbox⟩ := hbox
      rw [hbox, Function.update_self, List.mem_singleton] at hm
      rw [hbox, Function.update_self, hm]
      simp [Hal.receive, takeFirst]

/-- The threads 1 to 5. -/
def pids : Pids where
  pid p := p.idx + 1
  pidE := 5
  injective := by
    intro p q h
    cases p <;> cases q <;> first | rfl | cases h
  pid_ne p := by cases p <;> decide
  positive p := by cases p <;> decide
  positiveE := by decide

/-- They have not run. -/
def fresh : State where
  thread := fun _ => ⟨.start, MsgData.zero, MsgData.zero, 0⟩
  e := ⟨.start, MsgData.zero, MsgData.zero, ' '⟩
  box := fun _ => []
  out := []

/-- A has printed its letter, and then B. -/
theorem token_ring_ab : ∃ s, s.out = ['a', 'b'] ∧ tokens pids s = 1 := by
  obtain ⟨s, hr, hs⟩ : ∃ s, Reach (State.step pids) (fun _ _ => True) fresh s ∧ s.out = ['a', 'b'] :=
    Reach.exists_of_exec
      [.player .B, .player .A, .player .A, .player .A, .player .A, .e, .e, .e, .e, .e,
        .player .B, .player .B, .player .B] (by decide +kernel)
  have h0 : fresh.Initial := ⟨fun _ => rfl, rfl, fun _ => rfl, rfl⟩
  exact ⟨s, hs, (token_ring pids fresh s h0 hr).2.1⟩

end TokenRing
end NanoOS
