/-
# The cooked buffer holds lines

`cook` appends the typed line with its zero byte to the ring `cbuf`, and
`get_cooked` takes bytes out of it up to a zero byte or to the count asked
for. So between `f` and `r` there is always a sequence of strings, of which
the first may have lost a part to an earlier read; this module says what
Enter and a read request do to it, and keeps a log of the lines entered and
of what each read got.

A line of any content can come to Enter: `Act.enter` takes the contents of
`lbuf`.

The lines come back intact. But Enter replays one waiting request only, so
when two wait and the one that is replayed leaves a part of the line, the
other one goes on waiting: `nobody_waits` says when this does not happen.

Key definitions: `Act`, `act`, `Holding`, `taken`, `calls`, `NoWait`.
Key theorems: `getCookedLoop_spec`, `cookLoop_spec`, `Inv.act`,
`lines_read_intact`, `nobody_waits`.
-/
import NanoOS.Lib.BoundedBuffer
import NanoOS.Lib.LineStream
import NanoOS.Lib.Trans
import NanoOS.Drivers.Tty.Ttyd

namespace NanoOS
namespace Tty
namespace Console

open Trans LineStream BoundedBuffer

/-- Enter, with `lbuf` as given, which holds the string `t`; or a read
request. -/
inductive Act
  | enter (lbuf : ℕ → BitVec 8) (t : List (BitVec 8))
  | read (m : MsgData)

/-- The text of a line has at most 255 bytes. -/
def Act.Ok : Act → Prop
  | .enter lbuf t => Spells lbuf 0 t ∧ t.length ≤ 255
  | .read _ => True

instance : DecidablePred Act.Ok
  | .enter lbuf t => inferInstanceAs (Decidable (Spells lbuf 0 t ∧ t.length ≤ 255))
  | .read _ => inferInstanceAs (Decidable True)

/-- What is done on an action. -/
def act (tty : ℤ) (c : Console) : Act → Except Fault (Console × Option Reply)
  | .enter lbuf _ => ({ c with lbuf := lbuf } : Console).cook tty
  | .read m => c.readRequest tty m

/-- One action; `none` if it ends in a panic. -/
def actStep (tty : ℤ) (c : Console) (a : Act) : Option Console := ((c.act tty a).map Prod.fst).toOption

/-- The log of an action: the line, and what the read got that was served on
it, if one was. -/
def logged (tty : ℤ) (c : Console) (a : Act) (g : Log (BitVec 8)) : Log (BitVec 8) :=
  let g := match a with
    | .enter _ t => g.enter t
    | .read _ => g
  match c.act tty a with
  | .ok (_, some rep) => g.serve (u32 rep.msg.len) rep.data
  | _ => g

/-! ### `get_cooked` -/

/-- The slots of `cbuf` that the loop of `get_cooked` consumes. -/
def taken : ℕ → Console → List ℕ
  | 0, _ => []
  | n + 1, c => c.f :: if c.cbuf c.f = 0 then [] else taken n { c with f := (c.f + 1) % cbufSz }

/-- How many slots are filled, from `f` to `r`. -/
def filled (c : Console) : ℕ := (c.r + cbufSz - c.f) % cbufSz

/-- The console on which an action calls `get_cooked`, and the count, if it
does. -/
def calls (c : Console) : Act → Option (Console × ℕ)
  | .read m => if c.f = c.r then none else some (c, u32 m.len)
  | .enter lbuf _ =>
    match cookLoop (lbufSz + 1) 0 { c with lbuf := lbuf } with
    | .ok d =>
      let d := onScreen (fun s => s.cr.lf) { d with i := 0, lbuf := Function.update d.lbuf 0 0 }
      if d.rtop ≠ 0 then some ({ d with rtop := d.rtop - 1 }, u32 (d.rstk (d.rtop - 1)).len) else none
    | .error _ => none

/-- The lines `ls` are between `f` and `r`. -/
def Holding (c : Console) (ls : List (List (BitVec 8))) : Prop :=
  Holds cbufSz c.cbuf c.f c.r (encode 0 ls) ∧ ∀ l ∈ ls, (0 : BitVec 8) ∉ l

variable {c c' : Console} {tty : ℤ} {l : List (BitVec 8)} {ls : List (List (BitVec 8))} {n : ℕ}
  {o : Option Reply}

theorem Holding.empty_iff (h : Holding c ls) : c.f = c.r ↔ ls = [] := by
  rw [h.1.empty_iff, encode_eq_nil]

/-- What is read, what is left and which slots are consumed. -/
theorem getCookedLoop_spec : ∀ (n : ℕ) (c : Console) (l : List (BitVec 8)), Holding c (l :: ls) →
    (getCookedLoop n c).1 = l.take n ∧ Holding (getCookedLoop n c).2 (rest n l ls) ∧
      taken n c = (List.range (min n (l.length + 1))).map fun j => (c.f + j) % cbufSz
  | 0, c, l, h => ⟨rfl, h, rfl⟩
  | n + 1, c, [], h => by
    have hf : c.f % cbufSz = c.f := Nat.mod_eq_of_lt h.1.front
    obtain ⟨hring, hz⟩ := h
    rw [encode_cons, List.nil_append] at hring
    obtain ⟨hx, hring⟩ := hring.pop
    unfold getCookedLoop taken
    simp only [hx, if_true]
    refine ⟨rfl, ⟨hring, fun l' hl' => hz l' (List.mem_cons_of_mem _ hl')⟩, ?_⟩
    rw [List.length_nil, Nat.zero_add, Nat.min_eq_right (by omega)]
    simp [hf]
  | n + 1, c, x :: l, h => by
    have hf : c.f % cbufSz = c.f := Nat.mod_eq_of_lt h.1.front
    obtain ⟨hring, hz⟩ := h
    rw [encode_cons, List.cons_append] at hring
    obtain ⟨hx, hring⟩ := hring.pop
    have hx0 : x ≠ 0 := fun h0 => hz (x :: l) List.mem_cons_self (h0 ▸ List.mem_cons_self)
    have hnext : Holding { c with f := (c.f + 1) % cbufSz } (l :: ls) := by
      refine ⟨by rw [encode_cons]; exact hring, fun l' hl' => ?_⟩
      rcases List.mem_cons.mp hl' with rfl | hl'
      · exact fun hm => hz (x :: l') List.mem_cons_self (List.mem_cons_of_mem _ hm)
      · exact hz l' (List.mem_cons_of_mem _ hl')
    obtain ⟨hdata, hleft, htaken⟩ := getCookedLoop_spec n _ l hnext
    unfold getCookedLoop taken
    simp only [hx, if_neg hx0]
    refine ⟨by rw [hdata, List.take_succ_cons], ?_, ?_⟩
    · have hrest : rest (n + 1) (x :: l) ls = rest n l ls := by
        unfold rest
        simp only [List.length_cons, Nat.add_lt_add_iff_right, List.drop_succ_cons]
      rw [hrest]
      exact hleft
    · rw [htaken, List.length_cons, Nat.add_min_add_right, List.range_succ_eq_map, List.map_cons,
        List.map_map, show (c.f + 0) % cbufSz = c.f from hf]
      congr 1
      apply List.map_congr_left
      intro j _
      simp only [Function.comp_apply, Nat.mod_add_mod, Nat.succ_eq_add_one]
      congr 1
      omega

theorem Holding.taken_le (h : Holding c (l :: ls)) (n : ℕ) :
    ∃ t, t ≤ c.filled ∧ taken n c = (List.range t).map fun j => (c.f + j) % cbufSz := by
  refine ⟨_, ?_, (getCookedLoop_spec n c l h).2.2⟩
  have hlen : c.filled = (encode 0 (l :: ls)).length := h.1.length_eq
  rw [hlen, encode_cons, List.length_append, List.length_cons]
  omega

/-! ### `cook` -/

/-- The string in `lbuf` comes to the end of the ring. -/
theorem cookLoop_spec : ∀ {t : List (BitVec 8)} {m k : ℕ} {c c' : Console} {q : List (BitVec 8)},
    Spells c.lbuf k t → t.length < m → Holds cbufSz c.cbuf c.f c.r q →
    cookLoop m k c = .ok c' → Holds cbufSz c'.cbuf c'.f c'.r (q ++ (t ++ [0])) ∧ SameHeld c c'
  | t, 0, _, _, _, _, _, hm, _, _ => by cases hm
  | t, m + 1, k, c, c', q, ht, hm, hq, h => by
    unfold cookLoop at h
    dsimp only at h
    split at h
    · cases h
    rename_i hfull
    have hroom : q.length + 1 < cbufSz := by
      have := hq.room
      have := hq.full_iff.not.mp hfull
      omega
    have hpush := hq.push hroom (c.lbuf k)
    cases t with
    | nil =>
      have hz : c.lbuf k = 0 := ht
      rw [if_neg (by simp [hz])] at h
      cases h
      rw [hz] at hpush
      rw [hz]
      exact ⟨hpush, rfl, rfl⟩
    | cons x t =>
      obtain ⟨hx, hx0, ht⟩ := ht
      rw [if_pos (by rw [hx]; exact hx0)] at h
      rw [hx] at hpush h
      have ih := cookLoop_spec (c := { c with cbuf := Function.update c.cbuf c.r x, r := (c.r + 1) % cbufSz })
        ht (by simpa using hm) hpush h
      rw [List.append_assoc] at ih
      exact ⟨ih.1, ih.2.1, ih.2.2⟩

theorem Spells.zero_notMem : ∀ {t : List (BitVec 8)} {b : ℕ → BitVec 8} {k : ℕ}, Spells b k t →
    (0 : BitVec 8) ∉ t
  | [], _, _, _ => by simp
  | x :: t, b, k, h => by
    obtain ⟨-, hx, h⟩ := h
    intro hm
    rcases List.mem_cons.mp hm with h0 | hm
    · exact hx h0.symm
    · exact h.zero_notMem hm

theorem Holding.cookLoop {t : List (BitVec 8)} {lbuf : ℕ → BitVec 8} (h : Holding c ls)
    (ht : Spells lbuf 0 t ∧ t.length ≤ 255)
    (hc : Console.cookLoop (lbufSz + 1) 0 { c with lbuf := lbuf } = .ok c') :
    Holding c' (ls ++ [t]) ∧ SameHeld c c' := by
  obtain ⟨hring, hheld⟩ := cookLoop_spec (c := { c with lbuf := lbuf }) ht.1
    (by unfold lbufSz; omega) h.1 hc
  refine ⟨⟨by rw [encode_append]; exact hring, fun l hl => ?_⟩, hheld⟩
  rcases List.mem_append.mp hl with hl | hl
  · exact h.2 l hl
  · rw [List.mem_singleton] at hl
    rw [hl]
    exact ht.1.zero_notMem

/-! ### What an action does to the lines -/

/-- Of the lines `ls`, a request for `n` bytes was answered by `rep`, and the
others are in `c`. -/
def Answered (n : ℕ) (ls : List (List (BitVec 8))) (rep : Reply) (c : Console) : Prop :=
  ∃ l ls', ls = l :: ls' ∧ u32 rep.msg.len = n ∧ rep.data = l.take n ∧ Holding c (rest n l ls')

/-- A read request waits if there is no line, or is answered. -/
theorem Holding.readRequest {m : MsgData} (h : Holding c ls) (hr : c.readRequest tty m = .ok (c', o)) :
    (ls = [] ∧ o = none ∧ Holding c' [] ∧ c'.rtop = c.rtop + 1) ∨
    (ls ≠ [] ∧ SameHeld c c' ∧ ∃ rep, o = some rep ∧ Answered (u32 m.len) ls rep c') := by
  unfold Console.readRequest getCooked at hr
  by_cases he : c.f = c.r
  · left
    have hnil := h.empty_iff.mp he
    rw [if_pos he] at hr
    split at hr
    · cases hr
    · cases hr
      exact ⟨hnil, rfl, hnil ▸ h, rfl⟩
  · right
    have hne : ls ≠ [] := fun hnil => he (h.empty_iff.mpr hnil)
    rw [if_neg he, if_neg he] at hr
    cases hr
    obtain ⟨l, ls', rfl⟩ := List.exists_cons_of_ne_nil hne
    obtain ⟨hdata, hleft, -⟩ := getCookedLoop_spec (u32 m.len) c l h
    exact ⟨hne, getCookedLoop_sameHeld _ c, _, rfl, l, ls', rfl, rfl, hdata, hleft⟩

/-- Enter adds a line, and answers the request on top if one waits. -/
theorem Holding.cook {t : List (BitVec 8)} {lbuf : ℕ → BitVec 8} (h : Holding c ls)
    (ht : Spells lbuf 0 t ∧ t.length ≤ 255) (hc : ({ c with lbuf := lbuf } : Console).cook tty = .ok (c', o)) :
    (c.rtop = 0 ∧ o = none ∧ Holding c' (ls ++ [t]) ∧ c'.rtop = 0) ∨
    (c.rtop ≠ 0 ∧ c'.rtop = c.rtop - 1 ∧ ∃ rep, o = some rep ∧ Answered (u32 c.top.len) (ls ++ [t]) rep c') := by
  unfold Console.cook at hc
  obtain ⟨c1, h1, hc⟩ := ok_of_bind hc
  obtain ⟨hhold, hheld⟩ := h.cookLoop ht h1
  -- the console when the line is cleared, before a request is replayed
  obtain ⟨d, hd⟩ : ∃ d, d = onScreen (fun s => s.cr.lf) { c1 with i := 0, lbuf := Function.update c1.lbuf 0 0 } :=
    ⟨_, rfl⟩
  have hdhold : Holding d (ls ++ [t]) := by
    rw [hd]
    exact hhold
  have hdheld : SameHeld c d := by
    rw [hd]
    exact ⟨hheld.1, hheld.2⟩
  simp only [← hd] at hc
  split at hc
  · rename_i htop
    right
    have htop' : c.rtop ≠ 0 := hdheld.1 ▸ htop
    have hpop : Holding { d with rtop := d.rtop - 1 } (ls ++ [t]) := hdhold
    rcases hpop.readRequest hc with ⟨hnil, -⟩ | ⟨-, hsame, rep, ho, hans⟩
    · simp at hnil
    · refine ⟨htop', ?_, rep, ho, ?_⟩
      · rw [hsame.1, ← hdheld.1]
      · rw [← hdheld.top]
        exact hans
  · rename_i htop
    left
    have htop' : d.rtop = 0 := by simpa using htop
    simp only [pure, Except.pure, Except.ok.injEq, Prod.mk.injEq] at hc
    obtain ⟨rfl, rfl⟩ := hc
    exact ⟨hdheld.1 ▸ htop', rfl, hdhold, htop'⟩

/-! ### Every run -/

/-- The lines that wait are what is left of the lines entered, and every read
was in its place. -/
def Inv (p : Console × Log (BitVec 8)) : Prop := ∃ ls, Holding p.1 ls ∧ Left p.2 ls ∧ Placed p.2

theorem inv_init (cell : ℤ → Cell) : Inv (init cell, ⟨[], []⟩) :=
  ⟨[], ⟨Holds.nil (show 0 < cbufSz by decide), by simp⟩, Left.nil, Placed.nil⟩

theorem Answered.inv {g : Log (BitVec 8)} {rep : Reply} (h : Answered n ls rep c) (hleft : Left g ls)
    (hplaced : Placed g) : Inv (c, g.serve (u32 rep.msg.len) rep.data) := by
  obtain ⟨l, ls', rfl, hn, hdata, hhold⟩ := h
  rw [hn, hdata]
  exact ⟨_, hhold, hleft.serve n, hplaced.serve hleft n⟩

/-- An action keeps the lines and the log in step. -/
theorem Inv.act {p : Console × Log (BitVec 8)} {a : Act} (h : Inv p) (ha : a.Ok)
    (hs : actStep tty p.1 a = some c') : Inv (c', logged tty p.1 a p.2) := by
  obtain ⟨ls, hhold, hleft, hplaced⟩ := h
  unfold actStep at hs
  cases hact : p.1.act tty a with
  | error e => rw [hact] at hs; cases hs
  | ok r =>
    obtain ⟨d, o⟩ := r
    rw [hact] at hs
    cases hs
    unfold logged
    rw [hact]
    cases a with
    | enter lbuf t =>
      rcases hhold.cook ha hact with ⟨-, rfl, hh, -⟩ | ⟨-, -, rep, rfl, hans⟩
      · exact ⟨_, hh, hleft.enter t, hplaced.enter t⟩
      · exact hans.inv (hleft.enter t) (hplaced.enter t)
    | read m =>
      rcases hhold.readRequest hact with ⟨rfl, rfl, hh, -⟩ | ⟨-, -, rep, rfl, hans⟩
      · exact ⟨_, hh, hleft, hplaced⟩
      · exact hans.inv hleft hplaced

theorem readRequest_of_ne {m : MsgData} (he : c.f ≠ c.r) : ∃ rep, rep.data = (getCookedLoop (u32 m.len) c).1 ∧
    c.readRequest tty m = .ok ((getCookedLoop (u32 m.len) c).2, some rep) := by
  unfold readRequest getCooked
  rw [if_neg he, if_neg he]
  exact ⟨_, rfl, rfl⟩

/-- What `calls` says: `get_cooked` finds a line there, and what it does is
what the action comes to. -/
theorem Holding.calls {a : Act} {d : Console} (h : Holding c ls) (ha : a.Ok) (hd : c.calls a = some (d, n)) :
    (∃ l ls', Holding d (l :: ls')) ∧
    ∃ rep, rep.data = (getCookedLoop n d).1 ∧ c.act tty a = .ok ((getCookedLoop n d).2, some rep) := by
  cases a with
  | enter lbuf t =>
    unfold Console.calls at hd
    dsimp only at hd
    split at hd
    · rename_i c1 h1
      split at hd
      · rename_i htop
        obtain ⟨hhold, -⟩ := h.cookLoop ha h1
        simp only [Option.some.injEq, Prod.mk.injEq] at hd
        obtain ⟨rfl, rfl⟩ := hd
        obtain ⟨l, ls', hl⟩ := List.exists_cons_of_ne_nil (l := ls ++ [t]) (by simp)
        refine ⟨⟨l, ls', hl ▸ hhold⟩, ?_⟩
        have hne : c1.f ≠ c1.r := fun he => by simpa using hhold.empty_iff.mp he
        unfold Console.act Console.cook
        dsimp only
        rw [h1]
        simp only [bind, Except.bind]
        rw [if_pos htop]
        exact readRequest_of_ne hne
      · cases hd
    · cases hd
  | read m =>
    unfold Console.calls at hd
    dsimp only at hd
    split at hd
    · cases hd
    · rename_i he
      cases hd
      obtain ⟨l, ls', hl⟩ := List.exists_cons_of_ne_nil (fun hnil => he (h.empty_iff.mpr hnil))
      exact ⟨⟨l, ls', hl ▸ h⟩, readRequest_of_ne he⟩

/-- **Typed lines are read back intact.** On a console on which Enter and
read requests come in any order, without a panic: the bytes read are the
beginning of the lines entered; every read got its bytes from one line, from
where the reads before it had come to, and came to the end of that line if it
got fewer than it asked for; and every call of `get_cooked` consumes slots in
a row from `f` on, no more than are filled. -/
theorem lines_read_intact (tty : ℤ) (cell : ℤ → Cell) (p : Console × Log (BitVec 8))
    (hr : Reach (withHistory (actStep tty) (logged tty)) (fun _ a => a.Ok) (init cell, ⟨[], []⟩) p) :
    p.2.read <+: p.2.entered.flatten ∧ Placed p.2 ∧
    ∀ a d n, Act.Ok a → p.1.calls a = some (d, n) →
      (∃ rep, rep.data = (getCookedLoop n d).1 ∧ p.1.act tty a = .ok ((getCookedLoop n d).2, some rep)) ∧
      ∃ t, t ≤ d.filled ∧ taken n d = (List.range t).map fun j => (d.f + j) % cbufSz := by
  have hinv : Inv p := by
    refine hr.invariant (inv_init cell) fun p a p' hI ha hs => ?_
    obtain ⟨hs1, hs2⟩ := withHistory_eq_some.mp hs
    have h := hI.act ha hs1
    rw [← hs2] at h
    exact h
  obtain ⟨ls, hhold, hleft, hplaced⟩ := hinv
  refine ⟨hleft.isPrefix, hplaced, fun a d n ha hd => ?_⟩
  obtain ⟨⟨l, ls', hd'⟩, hrep⟩ := hhold.calls ha hd
  exact ⟨hrep, hd'.taken_le n⟩

/-- A request to read `len` bytes. -/
def readMsg (len : ℤ) : MsgData := devRwMsg 5 devRead 5 0 0 len ⟨"tty1", 3, 0⟩

/-- "hi" in `lbuf`. -/
def hi : ℕ → BitVec 8
  | 0 => 104
  | 1 => 105
  | _ => 0

/-- "hi" is read in two pieces, the second of which asks for more than is
left. -/
theorem lines_read_intact_hi : ∃ p : Console × Log (BitVec 8),
    p.2.served = [(1, [104]), (5, [105])] ∧ p.2.read <+: p.2.entered.flatten ∧ Placed p.2 := by
  obtain ⟨p, hr, hp⟩ : ∃ p, Reach (withHistory (actStep 3) (logged 3)) (fun _ a => a.Ok)
      (init fun _ => blank, ⟨[], []⟩) p ∧ p.2.served = [(1, [104]), (5, [105])] :=
    Reach.exists_of_exec [.enter hi [104, 105], .read (readMsg 1), .read (readMsg 5)] (by decide +kernel)
  obtain ⟨h1, h2, -⟩ := lines_read_intact 3 _ p hr
  exact ⟨p, hp, h1, h2⟩

/-! ### Who waits -/

/-- Nobody waits while there is something to read. -/
def NoWait (c : Console) : Prop := 0 < c.rtop → c.f = c.r

instance : DecidablePred NoWait := fun c => inferInstanceAs (Decidable (0 < c.rtop → c.f = c.r))

/-- When two or more requests wait at an Enter, the one that came last asks
for more than the line has. -/
def Suffices (c : Console) : Act → Prop
  | .enter _ t => 2 ≤ c.rtop → t.length < u32 c.top.len
  | .read _ => True

instance (c : Console) : DecidablePred c.Suffices
  | .enter _ t => inferInstanceAs (Decidable (2 ≤ c.rtop → t.length < u32 c.top.len))
  | .read _ => inferInstanceAs (Decidable True)

/-- Nobody waits, in terms of the lines. -/
def Quiet (c : Console) : Prop := ∃ ls, Holding c ls ∧ (0 < c.rtop → ls = [])

theorem Holding.noWait_iff (h : Holding c ls) : c.NoWait ↔ (0 < c.rtop → ls = []) := by
  unfold NoWait
  rw [h.empty_iff]

theorem Quiet.noWait (h : Quiet c) : c.NoWait := by
  obtain ⟨ls, hhold, hnil⟩ := h
  exact hhold.noWait_iff.mpr hnil

/-- From a state in which nobody waits, an action leads to another one
exactly if the request replayed takes the whole line. -/
theorem Quiet.act {a : Act} (h : Quiet c) (ha : a.Ok) (hs : actStep tty c a = some c') :
    (c'.NoWait ↔ c.Suffices a) ∧ (c.Suffices a → Quiet c') := by
  obtain ⟨ls, hhold, hnil⟩ := h
  -- the two parts come together, once it is known what lines are left
  have both : ∀ ls', Holding c' ls' → ((0 < c'.rtop → ls' = []) ↔ c.Suffices a) →
      (c'.NoWait ↔ c.Suffices a) ∧ (c.Suffices a → Quiet c') := by
    intro ls' h' hiff
    exact ⟨h'.noWait_iff.trans hiff, fun hsuf => ⟨ls', h', hiff.mpr hsuf⟩⟩
  unfold actStep at hs
  cases hact : c.act tty a with
  | error e => rw [hact] at hs; cases hs
  | ok r =>
    obtain ⟨d, o⟩ := r
    rw [hact] at hs
    obtain rfl : d = c' := Option.some.inj hs
    cases a with
    | enter lbuf t =>
      rcases hhold.cook ha hact with ⟨h0, -, hh, h0'⟩ | ⟨hpos, hrtop, rep, -, l, ls', hl, -, -, hh⟩
      · exact both _ hh ⟨fun _ h2 => by omega, fun _ h1 => by omega⟩
      · -- the ring was empty, so the line typed is the one that is read
        rw [hnil (by omega), List.nil_append, List.cons.injEq] at hl
        obtain ⟨rfl, rfl⟩ := hl
        apply both _ hh
        have hrest : rest (u32 c.top.len) t [] = [] ↔ t.length < u32 c.top.len := by
          unfold rest
          split
          · rename_i hlt
            exact ⟨fun _ => hlt, fun _ => rfl⟩
          · rename_i hlt
            exact ⟨fun hc => absurd hc (List.cons_ne_nil _ _), fun hc => absurd hc hlt⟩
        rw [hrest]
        exact ⟨fun hw h2 => hw (by omega), fun hsuf h1 => hsuf (by omega)⟩
    | read m =>
      rcases hhold.readRequest hact with ⟨-, -, hh, -⟩ | ⟨hne, hsame, rep, -, l, ls', -, -, -, hh⟩
      · exact both _ hh ⟨fun _ => trivial, fun _ _ => rfl⟩
      · have h0 : c.rtop = 0 := by
          by_contra hpos
          exact hne (hnil (by omega))
        have h0' : d.rtop = 0 := hsame.1.trans h0
        exact both _ hh ⟨fun _ => trivial, fun _ h1 => by omega⟩

theorem quiet_init (cell : ℤ → Cell) : Quiet (init cell) :=
  ⟨[], ⟨Holds.nil (show 0 < cbufSz by decide), by simp⟩, fun _ => rfl⟩

/-- **Who waits while there is input.** As long as, whenever two or more
requests wait at an Enter, the request that came last asks for more bytes than
the line has, nobody waits while there is something to read; and the first
Enter that breaks this rule leaves a request waiting beside input. -/
theorem nobody_waits (tty : ℤ) (cell : ℤ → Cell) (c : Console)
    (hr : Reach (actStep tty) (fun c a => a.Ok ∧ c.Suffices a) (init cell) c) :
    c.NoWait ∧ ∀ a c', Act.Ok a → actStep tty c a = some c' → (c'.NoWait ↔ c.Suffices a) := by
  have hq : Quiet c := by
    refine hr.invariant (quiet_init cell) fun c a c' hq ha hs => ?_
    exact (hq.act ha.1 hs).2 ha.2
  exact ⟨hq.noWait, fun a c' ha hs => (hq.act ha hs).1⟩

/-- A line is typed while one request waits, and the next request is served
at once. -/
theorem nobody_waits_hi : ∃ c : Console, c.rtop = 0 ∧ c.NoWait := by
  obtain ⟨c, hr, hc⟩ : ∃ c : Console,
      Reach (actStep 3) (fun c a => a.Ok ∧ c.Suffices a) (init fun _ => blank) c ∧ c.rtop = 0 :=
    Reach.exists_of_exec [.read (readMsg 1), .enter hi [104, 105], .read (readMsg 5)] (by decide +kernel)
  exact ⟨c, hc, (nobody_waits 3 _ c hr).1⟩

/-- Two requests for one byte wait, and "hi" is typed: the second request
gets "h", and the first one goes on waiting beside "i". -/
theorem request_waits_beside_input :
    ¬ ∀ (tty : ℤ) (cell : ℤ → Cell) (c : Console),
      Reach (actStep tty) (fun _ a => a.Ok) (init cell) c → c.NoWait := by
  intro h
  obtain ⟨c, hr, hc⟩ : ∃ c : Console,
      Reach (actStep 3) (fun _ a => a.Ok) (init fun _ => blank) c ∧ ¬ c.NoWait :=
    Reach.exists_of_exec [.read (readMsg 1), .read (readMsg 1), .enter hi [104, 105]] (by decide +kernel)
  exact hc (h 3 _ c hr)

end Console
end Tty
end NanoOS
