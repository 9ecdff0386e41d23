/-
# What is on the hardware screen

`consl_sync` copies the window of the current console to the video memory, below the
banner, and programs the cursor. `ttyd` calls it after everything that changes a
console, and `update_banner` draws the time and the number of the console.

`init_consl` calls `consl_sync` before `current_consl` is set, so the screen is not
drawn until the first update, which the timer asks for every 100 ms. `get_time` copies
the time without a lock; that an interrupt changes the time meanwhile is left out.

Key definitions: `Display`, `conslSync`, `updateBanner`, `ttydShown`, `Displays`,
`bannerAt`.
Key theorems: `bannerText_eq`, `displays_conslSync`, `ShowsAll.step`, `printable_getTime`,
`screen_shows_current`.
-/
import Mathlib.Data.List.GetD
import NanoOS.Drivers.Timer.Clock
import NanoOS.Drivers.Tty.Colour
import NanoOS.Drivers.Tty.Echo
import NanoOS.Drivers.Tty.Ttyd

namespace NanoOS
namespace Tty

open Trans

/-- `C_BLUE` and `C_LWHITE`. -/
def cBlue : BitVec 16 := 1

def cLwhite : BitVec 16 := 15

/-- `vmem`, the registers of the video controller with the index of the one that is
selected, `banner` and `tsc`. -/
structure Display where
  vmem : ℕ → Cell
  index : BitVec 8
  crtc : BitVec 8 → BitVec 8
  banner : ℕ → BitVec 8
  tsc : ℕ

namespace Display

/-- `out_byte`. -/
def outByte (port : ℕ) (x : BitVec 8) (v : Display) : Display :=
  if port = 0x3d4 then { v with index := x }
  else if port = 0x3d5 then { v with crtc := Function.update v.crtc v.index x }
  else v

/-- Where the cursor is. -/
def cursor (v : Display) : BitVec 16 := v.crtc 0xe ++ v.crtc 0xf

/-- A cell of the banner. -/
def drawBanner (ch : BitVec 8) : Cell := cBlue <<< 12 ||| cLwhite <<< 8 ||| ch.signExtend 16

/-- `consl_sync`; `shown` is `current_consl == c`. -/
def conslSync (c : Screen) (shown : Bool) (v : Display) : Display :=
  let v := { v with vmem := fun i => if (i : ℤ) < scrW then drawBanner (v.banner i) else v.vmem i }
  if shown then
    let v := { v with vmem := fun i =>
      if c.w ≤ i ∧ (i : ℤ) < c.w + c.wh then c.mem.cell (c.scr + (i - c.w)) else v.vmem i }
    let pos := BitVec.ofInt 32 (c.pos - c.scr + c.w)
    let v := outByte 0x3d4 0xe v
    let v := outByte 0x3d5 ((pos.sshiftRight 8).setWidth 8) v
    let v := outByte 0x3d4 0xf v
    outByte 0x3d5 ((pos &&& 0xff).setWidth 8) v
  else v

/-- `ani`. -/
def ani : List (BitVec 8) := [45, 92, 124, 47] -- "-\\|/"

/-- `*p ++ = x`. -/
def put (x : BitVec 8) (s : ℕ × (ℕ → BitVec 8)) : ℕ × (ℕ → BitVec 8) := (s.1 + 1, Function.update s.2 s.1 x)

/-- `draw2`. -/
def draw2 (q : ℤ) (s : ℕ × (ℕ → BitVec 8)) : ℕ × (ℕ → BitVec 8) :=
  put (BitVec.ofInt 8 (q.tmod 10 + 48)) (put (BitVec.ofInt 8 (q.tdiv 10 + 48)) s)

/-- The text that `update_banner` writes, with `current_consl` at `ttys + current`. -/
def bannerText (tm : Time) (current : ℕ) (v : Display) : ℕ → BitVec 8 :=
  let s := (80 - 20, Function.update v.banner 1 (ani.getD v.tsc 0))
  let s := put 48 (put 50 s)
  let s := put 47 (draw2 (tm.year.tmod 100) s)
  let s := put 47 (draw2 tm.month s)
  let s := put 32 (draw2 tm.day s)
  let s := put 58 (draw2 tm.hour s)
  let s := put 58 (draw2 tm.minute s)
  let s := draw2 tm.second s
  let text := Function.update s.2 3 116
  let text := Function.update text 4 116
  let text := Function.update text 5 121
  Function.update text 6 (BitVec.ofNat 8 (49 + current))

/-- `update_banner`, where `c` is `*current_consl`. -/
def updateBanner (tm : Time) (current : ℕ) (c : Screen) (v : Display) : Display :=
  conslSync c true { v with banner := v.bannerText tm current, tsc := (v.tsc + 1) % 4 }

end Display

open Display

/-! ### The driver, with the screen -/

/-- `readkey`. -/
def readkeyShown (tty : ℤ) (code : ℕ) (p : Ttyd × Display) : Except Fault ((Ttyd × Display) × Option Reply) :=
  if 128 ≤ code then .ok (({ p.1 with keys := p.1.keys.release (code - 128) }, p.2), none)
  else do
    let s ← p.1.acceptKey code
    let v := if p.1.keys.char code ≠ 0 then conslSync (s.ttys s.current).toScreen true p.2 else p.2
    if feeds code then do
      let (s, o) ← s.onTty s.current (Console.conslFeed tty code)
      let s := { s with current := s.chosen code }
      return ((s, conslSync (s.ttys s.current).toScreen true v), o)
    else if code = kF12 then .error .assertion
    else return (({ s with keys := s.keys.press code }, v), none)

/-- The `consl_sync` of a write to device `id`. -/
def syncTty (id : ℤ) (s : Ttyd) (v : Display) : Display :=
  if h : 0 ≤ id ∧ id < nrTty then conslSync (s.ttys ⟨id.toNat, by omega⟩).toScreen (id.toNat = s.current) v else v

/-- One round of `ttyd`, with `receive` done; `tm` is what `get_time` finds. -/
def ttydShown (tty : ℤ) (x : Input) (tm : Time) (m : MsgData) (p : Ttyd × Display) :
    Except Fault ((Ttyd × Display) × Option Reply) :=
  if m.src = msgHardIntr then
    if m.type = msgTtyGetkey then readkeyShown tty x.code p
    else if m.type = msgTtyUpdate then
      .ok ((p.1, updateBanner tm p.1.current (p.1.ttys p.1.current).toScreen p.2), none)
    else .error .assertion
  else if m.type = devRead then do
    let (s, o) ← p.1.ttyd tty x m
    return ((s, p.2), o)
  else if m.type = devWrite then do
    let (s, o) ← p.1.ttyd tty x m
    return ((s, syncTty m.devId s p.2), o)
  else .error .assertion

namespace Display

/-- After `init_console`, which draws the banner with each of its `init_consl`. -/
def init (vmem : ℕ → Cell) (index : BitVec 8) (crtc : BitVec 8 → BitVec 8) : Display :=
  (List.range nrTty).foldl (fun v _ => conslSync (Screen.initConsl fun _ => 0) false v)
    { vmem := vmem, index := index, crtc := crtc, banner := Function.update (fun _ => 32) 80 0, tsc := 0 }

end Display

/-- What `ttyd` meets in a round: a message, the outside, and the time. -/
structure Round where
  m : MsgData
  x : Input
  tm : Time

/-- The timer asks to draw the banner. -/
def Round.IsUpdate (e : Round) : Prop := e.m.src = msgHardIntr ∧ e.m.type = msgTtyUpdate

instance (e : Round) : Decidable e.IsUpdate := inferInstanceAs (Decidable (_ ∧ _))

/-- A round; `none` if it ends in a fault. -/
def shownStep (tty : ℤ) (p : Ttyd × Display) (e : Round) : Option (Ttyd × Display) :=
  ((ttydShown tty e.x e.tm e.m p).map Prod.fst).toOption

/-- The banners drawn, the last one first: the time and the console that was current. -/
def banners (p : Ttyd × Display) (e : Round) (h : List (Time × Fin nrTty)) : List (Time × Fin nrTty) :=
  if e.IsUpdate then (e.tm, p.1.current) :: h else h

/-! ### What is to be seen -/

/-- A number from 0 to 99, in decimal. -/
def two (q : ℤ) : List (BitVec 8) := [BitVec.ofNat 8 (48 + q.toNat / 10), BitVec.ofNat 8 (48 + q.toNat % 10)]

/-- `20yy/mm/dd hh:mm:ss`. -/
def stamp (tm : Time) : List (BitVec 8) :=
  [50, 48] ++ two (tm.year % 100) ++ [47] ++ two tm.month ++ [47] ++ two tm.day ++ [32] ++
    two tm.hour ++ [58] ++ two tm.minute ++ [58] ++ two tm.second

/-- The animation, in its `n`th state, and `tty` with the number of the console. -/
def title (n : ℕ) (j : Fin nrTty) : List (BitVec 8) :=
  [32, ani.getD (n % 4) 0, 32, 116, 116, 121, BitVec.ofNat 8 (49 + j)]

/-- The banner, column by column: the title on the left and the time from column 60 on. -/
def bannerAt (n : ℕ) (tm : Time) (j : Fin nrTty) (i : ℕ) : BitVec 8 :=
  if i < 60 then (title n j).getD i 32 else (stamp tm).getD (i - 60) 32

/-- The fields of the time have two digits. -/
structure Printable (tm : Time) : Prop where
  year : 0 ≤ tm.year
  month : 0 ≤ tm.month ∧ tm.month < 100
  day : 0 ≤ tm.day ∧ tm.day < 100
  hour : 0 ≤ tm.hour ∧ tm.hour < 100
  minute : 0 ≤ tm.minute ∧ tm.minute < 100
  second : 0 ≤ tm.second ∧ tm.second < 100

/-- The window of `c` is on the screen, below the banner, with the cursor. -/
structure Displays (c : Console) (v : Display) : Prop where
  cells : ∀ r k : ℕ, r < 24 → k < 80 → v.vmem (80 * (r + 1) + k) = c.mem.cell (c.scr + (80 * r + k : ℕ))
  cursor : v.cursor = BitVec.ofInt 16 c.hardwareCursor

/-! ### The size of a console -/

/-- The screen has the size that `init_consl` sets. -/
def Wide (c : Console) : Prop := c.w = 80 ∧ c.wh = 1920

namespace Console

variable {c c' : Console} {tty key : ℤ} {m : MsgData} {rep : Option Reply}

theorem wide_scrup (h : Wide c) : Wide (c.onScreen Screen.scrup) := by
  unfold onScreen Screen.scrup
  split
  · exact h
  · exact h

theorem wide_next (h : Wide c) : Wide (c.onScreen Screen.next) := by
  unfold onScreen Screen.next
  split
  · exact wide_scrup h
  · exact h

theorem wide_newline (h : Wide c) : Wide (c.onScreen fun s => s.cr.lf) := by
  unfold onScreen Screen.lf
  dsimp only
  split
  · exact wide_scrup (c := { c with toScreen := { c.cr with pos := c.cr.pos + c.cr.w } }) h
  · exact h

theorem wide_conslWritec (h : Wide c) (ch : BitVec 8) : Wide (c.onScreen fun s => s.conslWritec ch) := by
  unfold onScreen Screen.conslWritec
  dsimp only
  split
  · exact h
  split
  · exact wide_newline h
  · exact wide_next (c := c.onScreen (Screen.putc ch)) h

theorem wide_movl (h : Wide c) : Wide c.movl.2 := by
  unfold movl
  split
  · exact h
  · exact h

theorem wide_movr {moved : Bool} (h : Wide c) (hrun : c.movr = .ok (moved, c')) : Wide c' := by
  unfold movr at hrun
  obtain ⟨x, -, hrun⟩ := ok_of_bind hrun
  split at hrun
  · cases hrun
    exact h
  · cases hrun
    exact h

theorem wide_removeLoop : ∀ {n k : ℕ} {a : ℤ} {c : Console}, Wide c → removeLoop n k a c = .ok c' → Wide c'
  | 0, _, _, _, _, hrun => by cases hrun
  | n + 1, k, a, c, h, hrun => by
    unfold removeLoop at hrun
    split at hrun
    · cases hrun
      exact h
    · exact wide_removeLoop (by exact h) hrun

theorem wide_backsp (h : Wide c) (hrun : c.backsp = .ok c') : Wide c' := by
  unfold backsp at hrun
  split at hrun
  · obtain ⟨d, hd, hrun⟩ := ok_of_bind hrun
    obtain ⟨x, -, hrun⟩ := ok_of_bind hrun
    have hd := wide_removeLoop (by exact h) hd
    split at hrun
    · cases hrun
      exact hd
    · cases hrun
      exact hd
  · cases hrun
    exact h

theorem wide_readRequest (h : Wide c) (hrun : c.readRequest tty m = .ok (c', rep)) : Wide c' := by
  rcases readRequest_sameLine tty m c with ⟨c1, rep1, h1, hscreen, -, -⟩ | hfail
  · rw [h1] at hrun
    cases hrun
    unfold Wide
    rw [hscreen]
    exact h
  · rw [hfail] at hrun
    cases hrun

theorem wide_cookLoop : ∀ {n k : ℕ} {c : Console}, Wide c → cookLoop n k c = .ok c' → Wide c'
  | 0, _, _, _, hrun => by cases hrun
  | n + 1, k, c, h, hrun => by
    unfold cookLoop at hrun
    dsimp only at hrun
    split at hrun
    · cases hrun
    · split at hrun
      · exact wide_cookLoop (by exact h) hrun
      · cases hrun
        exact h

theorem wide_cook (h : Wide c) (hrun : c.cook tty = .ok (c', rep)) : Wide c' := by
  unfold cook at hrun
  obtain ⟨d, hd, hrun⟩ := ok_of_bind hrun
  have hwide : Wide d := wide_cookLoop h hd
  have hd := wide_newline (c := { d with i := 0, lbuf := Function.update d.lbuf 0 0 }) hwide
  dsimp only at hrun
  split at hrun
  · exact wide_readRequest (by exact hd) hrun
  · cases hrun
    exact hd

theorem wide_conslFeed (h : Wide c) (hrun : c.conslFeed tty key = .ok (c', rep)) : Wide c' :=
  conslFeed_rule (wide_cook h) (fun _ => wide_movl) (fun _ _ _ => wide_movr) (fun _ _ => wide_backsp) h hrun

theorem wide_acceptLoop : ∀ {n : ℕ} {c : Console}, Wide c → acceptLoop n c = .ok c' → Wide c'
  | 0, _, h, hrun => by
    cases hrun
    exact h
  | n + 1, c, h, hrun => by
    unfold acceptLoop at hrun
    dsimp only at hrun
    split at hrun
    · cases hrun
    · refine wide_acceptLoop ?_ hrun
      split
      · exact wide_scrup (by exact h)
      · exact h

theorem wide_conslAccept {ch : BitVec 8} (h : Wide c) (hrun : c.conslAccept ch = .ok c') : Wide c' := by
  unfold conslAccept at hrun
  obtain ⟨cc, -, hrun⟩ := ok_of_bind hrun
  obtain ⟨d, hd, hrun⟩ := ok_of_bind hrun
  have hwide : Wide d := wide_acceptLoop h hd
  have hd := wide_next (c := d.onScreen (Screen.putc ch)) hwide
  dsimp only at hrun
  split at hrun
  · cases hrun
  · cases hrun
    exact hd

theorem wide_writeAll (h : Wide c) (data : ℕ → BitVec 8) (n : ℕ) : Wide (Ttyd.writeAll data n c) := by
  unfold Ttyd.writeAll
  induction n with
  | zero => exact h
  | succ n ih =>
    rw [List.range_succ, List.foldl_append, List.foldl_cons, List.foldl_nil]
    exact wide_conslWritec ih (data n)

end Console

/-! ### The banner -/

namespace Display

variable {v : Display} {c : Screen} {n : ℕ} {tm : Time} {j : Fin nrTty}

/-- The columns that `update_banner` leaves alone are blank. -/
def Margins (v : Display) : Prop :=
  ∀ i < 80, i = 0 ∨ i = 2 ∨ 7 ≤ i ∧ i < 60 ∨ i = 79 → v.banner i = 32

theorem foldl_put : ∀ (l : List (BitVec 8)) (a : ℕ) (b : ℕ → BitVec 8),
    l.foldl (fun s x => put x s) (a, b) =
      (a + l.length, fun i => if a ≤ i ∧ i < a + l.length then l.getD (i - a) 32 else b i)
  | [], a, b => by
    refine Prod.ext rfl (funext fun i => ?_)
    have hno : ¬ (a ≤ i ∧ i < a + 0) := by omega
    exact (if_neg hno).symm
  | x :: l, a, b => by
    rw [List.foldl_cons]
    refine (foldl_put l (a + 1) (Function.update b a x)).trans (Prod.ext ?_ (funext fun i => ?_))
    · show a + 1 + l.length = a + (l.length + 1)
      omega
    · rw [List.length_cons]
      dsimp only
      by_cases hia : i = a
      · rw [if_neg (by omega), if_pos (by omega), hia, Function.update_self, Nat.sub_self]
        rfl
      · rw [Function.update_of_ne hia]
        by_cases hin : a + 1 ≤ i ∧ i < a + 1 + l.length
        · have hidx : i - a = i - (a + 1) + 1 := by omega
          rw [if_pos hin, if_pos (by omega), hidx, List.getD_cons_succ]
        · rw [if_neg hin, if_neg (by omega)]

theorem draw2_eq {q : ℤ} (h0 : 0 ≤ q) (s : ℕ × (ℕ → BitVec 8)) :
    draw2 q s = (two q).foldl (fun s x => put x s) s := by
  have hhigh : BitVec.ofInt 8 (q.tdiv 10 + 48) = BitVec.ofNat 8 (48 + q.toNat / 10) := by
    rw [Int.tdiv_eq_ediv_of_nonneg h0, ← BitVec.ofInt_natCast]
    congr 1
    omega
  have hlow : BitVec.ofInt 8 (q.tmod 10 + 48) = BitVec.ofNat 8 (48 + q.toNat % 10) := by
    rw [Int.tmod_eq_emod_of_nonneg h0, ← BitVec.ofInt_natCast]
    congr 1
    omega
  unfold draw2 two
  rw [hhigh, hlow]
  rfl

@[simp] theorem length_two (q : ℤ) : (two q).length = 2 := rfl

theorem length_stamp (tm : Time) : (stamp tm).length = 19 := by simp [stamp]

/-- **The text of the banner**, column by column. -/
theorem bannerText_eq (hm : Margins v) (hturn : v.tsc = n % 4) (htm : Printable tm) {i : ℕ} (hi : i < 80) :
    v.bannerText tm j i = bannerAt n tm j i := by
  have hyear : tm.year.tmod 100 = tm.year % 100 := Int.tmod_eq_emod_of_nonneg htm.year
  have hchain : v.bannerText tm j =
      Function.update (Function.update (Function.update (Function.update
        ((stamp tm).foldl (fun s x => put x s) (60, Function.update v.banner 1 (ani.getD (n % 4) 0))).2
          3 116) 4 116) 5 121) 6 (BitVec.ofNat 8 (49 + j)) := by
    unfold bannerText stamp
    dsimp only
    simp only [hturn, hyear, List.foldl_append, draw2_eq (Int.emod_nonneg tm.year (by decide : (100 : ℤ) ≠ 0)),
      draw2_eq htm.month.1, draw2_eq htm.day.1, draw2_eq htm.hour.1, draw2_eq htm.minute.1,
      draw2_eq htm.second.1]
    rfl
  rw [hchain, foldl_put, length_stamp]
  dsimp only
  unfold bannerAt
  by_cases h60 : i < 60
  · rw [if_pos h60]
    by_cases h7 : i < 7
    · have hblank : i = 0 ∨ i = 2 → v.banner i = 32 := fun h => hm i hi (by omega)
      interval_cases i
      · exact hblank (Or.inl rfl)
      · rfl
      · exact hblank (Or.inr rfl)
      · rfl
      · rfl
      · rfl
      · rfl
    · have hblank := hm i hi (by omega)
      have hover : (title n j).getD i 32 = 32 := List.getD_eq_default _ _ (show 7 ≤ i by omega)
      rw [Function.update_of_ne (by omega), Function.update_of_ne (by omega), Function.update_of_ne (by omega),
        Function.update_of_ne (by omega), if_neg (by omega), Function.update_of_ne (by omega), hblank, hover]
  · rw [if_neg h60, Function.update_of_ne (by omega), Function.update_of_ne (by omega),
      Function.update_of_ne (by omega), Function.update_of_ne (by omega)]
    by_cases h79 : i < 79
    · rw [if_pos (by omega)]
    · have hblank := hm i hi (by omega)
      have hlen : (stamp tm).length ≤ i - 60 := by
        rw [length_stamp]
        omega
      have hover : (stamp tm).getD (i - 60) 32 = 32 := List.getD_eq_default _ _ hlen
      rw [if_neg (by omega), Function.update_of_ne (by omega), hblank, hover]

theorem lt_of_mem_two {q : ℤ} (h0 : 0 ≤ q) (h100 : q < 100) {b : BitVec 8} (hb : b ∈ two q) : b < 0x80 := by
  have hdigit : ∀ d < 10, BitVec.ofNat 8 (48 + d) < 0x80 := by decide
  unfold two at hb
  rw [List.mem_pair] at hb
  rcases hb with rfl | rfl
  · exact hdigit _ (by omega)
  · exact hdigit _ (by omega)

theorem bannerAt_lt (htm : Printable tm) (n : ℕ) (j : Fin nrTty) (i : ℕ) : bannerAt n tm j i < 0x80 := by
  have hyear := Int.emod_nonneg tm.year (by decide : (100 : ℤ) ≠ 0)
  have hyear' := Int.emod_lt_of_pos tm.year (by decide : (0 : ℤ) < 100)
  have hstamp : ∀ b ∈ stamp tm, b < 0x80 := by
    intro b hb
    unfold stamp at hb
    simp only [List.mem_append, List.mem_singleton] at hb
    obtain (((((((((((h | h) | h) | h) | h) | h) | h) | h) | h) | h) | h) | h) := hb
    · revert b
      decide
    · exact lt_of_mem_two hyear hyear' h
    · exact h ▸ by decide
    · exact lt_of_mem_two htm.month.1 htm.month.2 h
    · exact h ▸ by decide
    · exact lt_of_mem_two htm.day.1 htm.day.2 h
    · exact h ▸ by decide
    · exact lt_of_mem_two htm.hour.1 htm.hour.2 h
    · exact h ▸ by decide
    · exact lt_of_mem_two htm.minute.1 htm.minute.2 h
    · exact h ▸ by decide
    · exact lt_of_mem_two htm.second.1 htm.second.2 h
  have htitle : ∀ b ∈ title n j, b < 0x80 := by
    have hn : n % 4 < 4 := Nat.mod_lt n (by decide)
    have hall : ∀ k < 4, ∀ j : Fin nrTty, ([32, ani.getD k 0, 32, 116, 116, 121, BitVec.ofNat 8 (49 + j)].all
        fun b => b < 0x80) = true := by decide
    exact fun b hb => of_decide_eq_true (List.all_eq_true.mp (hall _ hn j) b hb)
  have hget : ∀ {l : List (BitVec 8)} {a : ℕ}, (∀ b ∈ l, b < 0x80) → l.getD a 32 < 0x80 := by
    intro l a hl
    rw [List.getD_eq_getElem?_getD]
    cases ha : l[a]? with
    | none => decide
    | some b => exact hl b (List.mem_of_getElem? ha)
  unfold bannerAt
  split
  · exact hget htitle
  · exact hget hstamp

theorem drawBanner_eq (b : BitVec 8) (hb : b < 0x80) : drawBanner b = (0x1F : BitVec 8) ++ b := by
  have hlt : b.toNat < 128 := hb
  have hmsb : b.msb = false := by
    rw [BitVec.msb_eq_decide, decide_eq_false_iff_not]
    omega
  have hcolour : (cBlue <<< 12 ||| cLwhite <<< 8 : Cell) = 0x1F00 := by decide
  unfold drawBanner
  rw [hcolour, BitVec.signExtend_eq_setWidth_of_msb_false hmsb]
  apply BitVec.eq_of_toNat_eq
  rw [BitVec.toNat_or, BitVec.toNat_append, BitVec.toNat_setWidth, Nat.mod_eq_of_lt (by omega)]
  rfl

/-! ### `consl_sync` -/

theorem conslSync_banner (c : Screen) (shown : Bool) (v : Display) : (conslSync c shown v).banner = v.banner := by
  cases shown with
  | true => rfl
  | false => rfl

theorem conslSync_tsc (c : Screen) (shown : Bool) (v : Display) : (conslSync c shown v).tsc = v.tsc := by
  cases shown with
  | true => rfl
  | false => rfl

/-- The banner is drawn whether the console is shown or not. -/
theorem conslSync_row {c : Console} (h : Wide c) (shown : Bool) (v : Display) {i : ℕ} (hi : i < 80) :
    (conslSync c.toScreen shown v).vmem i = drawBanner (v.banner i) := by
  have hw := h.1
  have hin : (i : ℤ) < scrW := by
    unfold scrW
    omega
  cases shown with
  | true =>
    show (if c.w ≤ i ∧ (i : ℤ) < c.w + c.wh then _ else if (i : ℤ) < scrW then _ else _) = _
    rw [if_neg (by omega), if_pos hin]
  | false => exact if_pos hin

/-- The two bytes of the position are put together again. -/
theorem cursor_halves (x : BitVec 32) : (x.sshiftRight 8).setWidth 8 ++ (x &&& 0xff).setWidth 8 = x.setWidth 16 := by
  have hmask : ∀ j : ℕ, j < 8 → (0xff : BitVec 32).getLsbD j = true := by decide
  apply BitVec.eq_of_getLsbD_eq
  intro i hi
  rw [BitVec.getLsbD_append, BitVec.getLsbD_setWidth, BitVec.getLsbD_setWidth, BitVec.getLsbD_setWidth,
    BitVec.getLsbD_and, BitVec.getLsbD_sshiftRight]
  by_cases h8 : i < 8
  · rw [if_pos h8, hmask i h8, Bool.and_true, decide_eq_true h8, decide_eq_true hi]
  · have hlow : decide (i - 8 < 8) = true := decide_eq_true (by omega)
    have h32 : decide (32 ≤ i - 8) = false := decide_eq_false (by omega)
    have hback : 8 + (i - 8) = i := by omega
    rw [if_neg h8, hlow, h32, hback, if_pos (by omega), decide_eq_true hi]
    rfl

theorem setWidth_ofInt (z : ℤ) : (BitVec.ofInt 32 z).setWidth 16 = BitVec.ofInt 16 z := by
  apply BitVec.eq_of_toNat_eq
  rw [BitVec.toNat_setWidth, BitVec.toNat_ofInt, BitVec.toNat_ofInt]
  omega

/-- **`consl_sync` shows the current console.** -/
theorem displays_conslSync {c : Console} (h : Wide c) (v : Display) : Displays c (conslSync c.toScreen true v) := by
  obtain ⟨hw, hwh⟩ := h
  constructor
  · intro r k hr hk
    have hoff : ((80 * (r + 1) + k : ℕ) : ℤ) - c.w = (80 * r + k : ℕ) := by omega
    show (if c.w ≤ ((80 * (r + 1) + k : ℕ) : ℤ) ∧ ((80 * (r + 1) + k : ℕ) : ℤ) < c.w + c.wh then _ else _) = _
    rw [if_pos (by omega), hoff]
  · calc (conslSync c.toScreen true v).cursor
        = ((BitVec.ofInt 32 c.hardwareCursor).sshiftRight 8).setWidth 8 ++
          ((BitVec.ofInt 32 c.hardwareCursor) &&& 0xff).setWidth 8 := rfl
      _ = (BitVec.ofInt 32 c.hardwareCursor).setWidth 16 := cursor_halves _
      _ = BitVec.ofInt 16 c.hardwareCursor := setWidth_ofInt _

theorem displays_conslSync_other {c : Console} (h : Displays c v) (d : Screen) :
    Displays c (conslSync d false v) := by
  constructor
  · intro r k hr hk
    have hout : ¬ ((80 * (r + 1) + k : ℕ) : ℤ) < scrW := by
      unfold scrW
      omega
    exact (if_neg hout).trans (h.cells r k hr hk)
  · exact h.cursor

end Display

theorem Displays.congr {c c' : Console} {v : Display} (h : Displays c v) (hs : c'.toScreen = c.toScreen) :
    Displays c' v := by
  obtain ⟨hcells, hcursor⟩ := h
  constructor
  · rw [hs]
    exact hcells
  · unfold Console.hardwareCursor
    rw [hs]
    exact hcursor

/-! ### Every run -/

open Display

/-- What holds between two rounds, after the banners `h`. -/
structure ShowsAll (p : Ttyd × Display) (h : List (Time × Fin nrTty)) : Prop where
  wide : ∀ j, Wide (p.1.ttys j)
  margins : Margins p.2
  turn : p.2.tsc = h.length % 4
  row : ∀ i < 80, p.2.vmem i = drawBanner (p.2.banner i)
  text : ∀ tm j rest, h = (tm, j) :: rest → Printable tm ∧ ∀ i < 80, p.2.banner i = bannerAt rest.length tm j i
  window : h ≠ [] → Displays (p.1.ttys p.1.current) p.2

namespace ShowsAll

variable {s s' : Ttyd} {v : Display} {h : List (Time × Fin nrTty)} {tty : ℤ} {o : Option Reply}

/-- Wherever the driver is after it has drawn the current console. -/
theorem sync (hI : ShowsAll (s, v) h) (s' : Ttyd) (hwide : ∀ j, Wide (s'.ttys j)) :
    ShowsAll (s', conslSync (s'.ttys s'.current).toScreen true v) h where
  wide := hwide
  margins := hI.margins
  turn := hI.turn
  row _ hi := conslSync_row (hwide s'.current) true v hi
  text := hI.text
  window _ := displays_conslSync (hwide s'.current) v

/-- Where the screen of the current console is as it was, nothing has to be drawn. -/
theorem keep (hI : ShowsAll (s, v) h) (hwide : ∀ j, Wide (s'.ttys j))
    (hs : (s'.ttys s'.current).toScreen = (s.ttys s.current).toScreen) : ShowsAll (s', v) h where
  wide := hwide
  margins := hI.margins
  turn := hI.turn
  row := hI.row
  text := hI.text
  window hne := (hI.window hne).congr hs

theorem wide_update (hwide : ∀ j, Wide (s.ttys j)) (j : Fin nrTty) {c : Console} (hc : Wide c) (i : Fin nrTty) :
    Wide (Function.update s.ttys j c i) := by
  by_cases hi : i = j
  · rw [hi, Function.update_self]
    exact hc
  · rw [Function.update_of_ne hi]
    exact hwide i

theorem wide_onTty {j : Fin nrTty} {f : Console → Except Fault (Console × Option Reply)} (hwide : ∀ j, Wide (s.ttys j))
    (hf : ∀ c' o, f (s.ttys j) = .ok (c', o) → Wide c') (hrun : s.onTty j f = .ok (s', o)) (i : Fin nrTty) :
    Wide (s'.ttys i) := by
  unfold Ttyd.onTty at hrun
  obtain ⟨⟨c, o'⟩, hc, hrun⟩ := ok_of_bind hrun
  cases hrun
  exact wide_update hwide j (hf c _ hc) i

/-- A character is drawn; a key without one changes nothing. -/
theorem acceptKey {code : ℕ} (hI : ShowsAll (s, v) h) (hrun : s.acceptKey code = .ok s') :
    ShowsAll (s', if s.keys.char code ≠ 0 then conslSync (s'.ttys s'.current).toScreen true v else v) h := by
  unfold Ttyd.acceptKey at hrun
  by_cases hchar : s.keys.char code ≠ 0
  · rw [if_pos hchar] at hrun ⊢
    obtain ⟨c, hc, hrun⟩ := ok_of_bind hrun
    cases hrun
    exact hI.sync _ (wide_update hI.wide s.current (Console.wide_conslAccept (hI.wide s.current) hc))
  · rw [if_neg hchar] at hrun ⊢
    cases hrun
    exact hI

theorem readkey {code : ℕ} {p' : Ttyd × Display} (hI : ShowsAll (s, v) h)
    (hrun : readkeyShown tty code (s, v) = .ok (p', o)) : ShowsAll p' h := by
  unfold readkeyShown at hrun
  by_cases hcode : 128 ≤ code
  · rw [if_pos hcode, Except.ok.injEq, Prod.mk.injEq] at hrun
    obtain ⟨rfl, -⟩ := hrun
    exact hI.keep hI.wide rfl
  rw [if_neg hcode] at hrun
  obtain ⟨s1, h1, hrun⟩ := ok_of_bind hrun
  have hI1 := hI.acceptKey h1
  by_cases hfeed : feeds code = true
  · dsimp only at hrun
    rw [if_pos hfeed] at hrun
    obtain ⟨⟨s2, o2⟩, h2, hrun⟩ := ok_of_bind hrun
    cases hrun
    have hwide := wide_onTty hI1.wide (fun c' o hc => Console.wide_conslFeed (hI1.wide s1.current) hc) h2
    exact hI1.sync { s2 with current := s2.chosen code } hwide
  · dsimp only at hrun
    rw [if_neg hfeed] at hrun
    by_cases hreset : code = kF12
    · rw [if_pos hreset] at hrun
      cases hrun
    · rw [if_neg hreset] at hrun
      cases hrun
      exact hI1.keep hI1.wide rfl

theorem update {tm : Time} (hI : ShowsAll (s, v) h) (htm : Printable tm) :
    ShowsAll (s, updateBanner tm s.current (s.ttys s.current).toScreen v) ((tm, s.current) :: h) := by
  have htext : ∀ i < 80, v.bannerText tm s.current i = bannerAt h.length tm s.current i :=
    fun i hi => bannerText_eq hI.margins hI.turn htm hi
  refine ⟨hI.wide, ?_, ?_, ?_, ?_, fun _ => displays_conslSync (hI.wide s.current) _⟩
  · intro i hi hmargin
    show v.bannerText tm s.current i = 32
    rw [htext i hi]
    unfold bannerAt
    rcases hmargin with rfl | rfl | hmid | rfl
    · rfl
    · rfl
    · rw [if_pos hmid.2]
      exact List.getD_eq_default _ _ hmid.1
    · rfl
  · show (v.tsc + 1) % 4 = (h.length + 1) % 4
    have hturn : v.tsc = h.length % 4 := hI.turn
    omega
  · intro i hi
    exact conslSync_row (hI.wide s.current) true _ hi
  · intro tm' j rest hcons
    cases hcons
    exact ⟨htm, htext⟩

/-- A read request finds a line or waits: the screens stay as they are. -/
theorem read {m : MsgData} {j : Fin nrTty} (hI : ShowsAll (s, v) h)
    (hrun : s.onTty j (Console.readRequest tty m) = .ok (s', o)) : ShowsAll (s', v) h := by
  have hwide := wide_onTty hI.wide (fun c' o hc => Console.wide_readRequest (hI.wide j) hc) hrun
  refine hI.keep hwide ?_
  unfold Ttyd.onTty at hrun
  obtain ⟨⟨c, o'⟩, hc, hrun⟩ := ok_of_bind hrun
  cases hrun
  rcases Console.readRequest_sameLine tty m (s.ttys j) with ⟨c1, rep1, h1, hscreen, -, -⟩ | hfail
  · obtain ⟨rfl, -⟩ : c1 = c ∧ rep1 = o := Prod.mk.inj (Except.ok.inj (h1.symm.trans hc))
    show (Function.update s.ttys j c1 s.current).toScreen = _
    by_cases hj : s.current = j
    · rw [hj, Function.update_self]
      exact hscreen
    · rw [Function.update_of_ne hj]
  · rw [hfail] at hc
    cases hc

/-- Output on a console is drawn if it is the current one. -/
theorem write {j : Fin nrTty} {c : Console} (hI : ShowsAll (s, v) h) (hc : Wide c) :
    ShowsAll ({ s with ttys := Function.update s.ttys j c },
      conslSync (Function.update s.ttys j c j).toScreen (decide ((j : ℕ) = s.current)) v) h := by
  have hwide := wide_update hI.wide j hc
  by_cases hj : s.current = j
  · have hsync := hI.sync { s with ttys := Function.update s.ttys j c } hwide
    rw [decide_eq_true (congrArg Fin.val hj.symm), ← hj]
    rw [← hj] at hsync
    exact hsync
  · have hval : ¬ (j : ℕ) = s.current := fun heq => hj (Fin.ext heq.symm)
    rw [decide_eq_false hval]
    refine ⟨hwide, hI.margins, hI.turn, fun i hi => conslSync_row (hwide j) false v hi, hI.text, fun hne => ?_⟩
    have hother : Function.update s.ttys j c s.current = s.ttys s.current := Function.update_of_ne hj c s.ttys
    have hdisp := displays_conslSync_other (hI.window hne) (Function.update s.ttys j c j).toScreen
    dsimp only at hdisp ⊢
    rw [hother]
    exact hdisp

/-- **A round** shows what has changed. -/
theorem step {p p' : Ttyd × Display} {e : Round} (hI : ShowsAll p h) (he : e.IsUpdate → Printable e.tm)
    (hst : shownStep tty p e = some p') : ShowsAll p' (banners p e h) := by
  obtain ⟨s, v⟩ := p
  obtain ⟨o, hrun⟩ := ok_of_toOption hst
  unfold ttydShown at hrun
  by_cases hsrc : e.m.src = msgHardIntr
  · rw [if_pos hsrc] at hrun
    by_cases hkey : e.m.type = msgTtyGetkey
    · have hno : ¬ e.IsUpdate := by
        intro hup
        exact absurd (hkey.symm.trans hup.2) (by decide)
      rw [if_pos hkey] at hrun
      rw [banners, if_neg hno]
      exact hI.readkey hrun
    rw [if_neg hkey] at hrun
    by_cases hup : e.m.type = msgTtyUpdate
    · rw [if_pos hup] at hrun
      rw [banners, if_pos ⟨hsrc, hup⟩]
      cases hrun
      exact hI.update (he ⟨hsrc, hup⟩)
    · rw [if_neg hup] at hrun
      cases hrun
  have hno : ¬ e.IsUpdate := fun hup => hsrc hup.1
  rw [if_neg hsrc] at hrun
  rw [banners, if_neg hno]
  by_cases hread : e.m.type = devRead
  · rw [if_pos hread] at hrun
    obtain ⟨⟨s1, o1⟩, h1, hrun⟩ := ok_of_bind hrun
    cases hrun
    unfold Ttyd.ttyd at h1
    rw [if_neg hsrc, if_pos hread] at h1
    split at h1
    · exact hI.read h1
    · cases h1
  rw [if_neg hread] at hrun
  by_cases hwrite : e.m.type = devWrite
  · rw [if_pos hwrite] at hrun
    obtain ⟨⟨s1, o1⟩, h1, hrun⟩ := ok_of_bind hrun
    unfold Ttyd.ttyd at h1
    rw [if_neg hsrc, if_neg hread, if_pos hwrite] at h1
    by_cases hdev : 0 ≤ e.m.devId ∧ e.m.devId < nrTty
    · rw [dif_pos hdev] at h1
      cases h1
      dsimp only at hrun
      unfold syncTty at hrun
      rw [dif_pos hdev] at hrun
      cases hrun
      exact hI.write (Console.wide_writeAll (hI.wide _) e.x.data e.m.len.toNat)
    · rw [dif_neg hdev] at h1
      cases h1
  · rw [if_neg hwrite] at hrun
    cases hrun

end ShowsAll

/-! ### The times of the clock -/

/-- A second keeps the fields of the time in range, from an hour that is out of range, too. -/
theorem Printable.tickSecond {tm : Time} (h : Printable tm) (hm : 1 ≤ tm.month ∧ tm.month ≤ 12) :
    Printable (Timer.tickSecond tm) ∧ 1 ≤ (Timer.tickSecond tm).month ∧ (Timer.tickSecond tm).month ≤ 12 := by
  obtain ⟨hyear, -, hday, hhour, hminute, hsecond⟩ := h
  obtain ⟨t, ht⟩ : ∃ t, t = Timer.tickDay tm := ⟨_, rfl⟩
  have hcarry : t.year = tm.year ∧ t.month = tm.month ∧ (0 ≤ t.day ∧ t.day ≤ 100) ∧ (0 ≤ t.hour ∧ t.hour < 100) ∧
      (0 ≤ t.minute ∧ t.minute < 100) ∧ 0 ≤ t.second ∧ t.second < 100 := by
    rw [ht]
    unfold Timer.tickDay
    dsimp only
    split_ifs
    all_goals
      refine ⟨rfl, rfl, ?_⟩
      dsimp only at *
      omega
  have hmd : Timer.md t.year t.month ≤ 31 := by
    rw [Timer.md_eq t.year (by omega)]
    exact (Calendar.monthLength_bounds _ _).2
  have hroll : (Timer.rollDay t = t ∧ t.day < 31) ∨ ∃ y m, (0 ≤ y ∧ 1 ≤ m ∧ m ≤ 12) ∧
      Timer.rollDay t = { t with year := y, month := m, day := 1 } := by
    unfold Timer.rollDay
    by_cases hd : t.day ≥ Timer.md t.year t.month
    · right
      by_cases h12 : t.month + 1 ≥ 13
      · simp only [if_pos hd, if_pos h12]
        exact ⟨t.year + 1, 1, by omega, rfl⟩
      · simp only [if_pos hd, if_neg h12]
        exact ⟨t.year, t.month + 1, by omega, rfl⟩
    · have h12 : ¬ t.month ≥ 13 := by omega
      left
      simp only [if_neg hd, if_neg h12]
      exact ⟨trivial, by omega⟩
  rw [Timer.tickSecond_split, ← ht]
  rcases hroll with ⟨hsame, hday31⟩ | ⟨y, m, hym, hnew⟩
  · rw [hsame]
    refine ⟨⟨?_, ?_, ?_, ?_, ?_, ?_⟩, ?_, ?_⟩
    all_goals omega
  · rw [hnew]
    refine ⟨⟨hym.1, ?_, ?_, ?_, ?_, ?_⟩, hym.2⟩
    all_goals
      dsimp only
      omega

/-- Whatever valid time the real-time clock starts the timer with, `get_time` finds numbers of
two digits. -/
theorem printable_getTime {rtc : ℕ → BitVec 8} (hrtc : Timer.ValidRtc rtc) (s : Timer) (n : ℕ) :
    Printable (Timer.getTime (Timer.updateJiffy^[n] (Timer.initRt rtc s))) := by
  suffices h : ∀ t : Timer, Printable t.rt ∧ 1 ≤ t.rt.month ∧ t.rt.month ≤ 12 →
      Printable (Timer.updateJiffy t).rt ∧ 1 ≤ (Timer.updateJiffy t).rt.month ∧
        (Timer.updateJiffy t).rt.month ≤ 12 by
    have hall : ∀ n, Printable (Timer.updateJiffy^[n] (Timer.initRt rtc s)).rt ∧
        1 ≤ (Timer.updateJiffy^[n] (Timer.initRt rtc s)).rt.month ∧
        (Timer.updateJiffy^[n] (Timer.initRt rtc s)).rt.month ≤ 12 := by
      intro n
      induction n with
      | zero =>
        have hmonth := hrtc.month
        have hday := hrtc.day
        have hminute := hrtc.minute
        have hsecond := hrtc.second
        have hyear := hrtc.digits timeYear (by simp)
        have hmd : Timer.md (Timer.bcdValue (rtc timeYear)) (Timer.bcdValue (rtc timeMonth)) ≤ 31 := by
          rw [Timer.md_eq _ (by omega)]
          exact (Calendar.monthLength_bounds _ _).2
        rw [Function.iterate_zero_apply, Timer.initRt_rt]
        unfold Timer.rtcTime
        refine ⟨⟨?_, ?_, ?_, ?_, ?_, ?_⟩, ?_, ?_⟩
        all_goals
          dsimp only
          omega
      | succ n ih =>
        rw [Function.iterate_succ_apply']
        exact h _ ih
    exact (hall n).1
  intro t ht
  unfold Timer.updateJiffy
  dsimp only
  split
  · exact ht.1.tickSecond ht.2
  · exact ht

/-! ### The screen -/

theorem readkeyShown_readkey (tty : ℤ) (code : ℕ) (s : Ttyd) (v : Display) :
    (readkeyShown tty code (s, v)).map (fun r => (r.1.1, r.2)) = s.readkey tty code := by
  have hok : ∀ {β γ : Type} (b : β) (f : β → Except Fault γ), (Except.ok b >>= f) = f b := fun _ _ => rfl
  unfold readkeyShown Ttyd.readkey
  by_cases hcode : 128 ≤ code
  · rw [if_pos hcode, if_pos hcode]
    rfl
  rw [if_neg hcode, if_neg hcode]
  dsimp only
  cases s.acceptKey code with
  | error e => rfl
  | ok s1 =>
    by_cases hfeed : feeds code = true
    · simp only [hok, if_pos hfeed]
      cases s1.onTty s1.current (Console.conslFeed tty code) with
      | error e => rfl
      | ok q => rfl
    · simp only [if_neg hfeed]
      by_cases hreset : code = kF12
      · simp only [if_pos hreset]
        rfl
      · simp only [if_neg hreset]
        rfl

theorem ttydShown_ttyd (tty : ℤ) (x : Input) (tm : Time) (m : MsgData) (s : Ttyd) (v : Display) :
    (ttydShown tty x tm m (s, v)).map (fun r => (r.1.1, r.2)) = s.ttyd tty x m := by
  have hround : ∀ (y : Except Fault (Ttyd × Option Reply)) (f : Ttyd → Display),
      (y >>= fun q => match q with | (s, o) => pure ((s, f s), o)).map (fun r => (r.1.1, r.2)) = y := by
    intro y f
    cases y with
    | error e => rfl
    | ok q => rfl
  unfold ttydShown
  by_cases hsrc : m.src = msgHardIntr
  · rw [if_pos hsrc]
    unfold Ttyd.ttyd
    rw [if_pos hsrc]
    by_cases hkey : m.type = msgTtyGetkey
    · rw [if_pos hkey, if_pos hkey]
      exact readkeyShown_readkey tty x.code s v
    rw [if_neg hkey, if_neg hkey]
    by_cases hup : m.type = msgTtyUpdate
    · rw [if_pos hup, if_pos hup]
      rfl
    · rw [if_neg hup, if_neg hup]
      rfl
  rw [if_neg hsrc]
  by_cases hread : m.type = devRead
  · rw [if_pos hread]
    exact hround (s.ttyd tty x m) fun _ => v
  rw [if_neg hread]
  by_cases hwrite : m.type = devWrite
  · rw [if_pos hwrite]
    exact hround (s.ttyd tty x m) fun s => syncTty m.devId s v
  · rw [if_neg hwrite]
    unfold Ttyd.ttyd
    rw [if_neg hsrc, if_neg hread, if_neg hwrite]
    rfl

theorem showsAll_init (cell : ℤ → Cell) (vmem : ℕ → Cell) (index : BitVec 8) (crtc : BitVec 8 → BitVec 8) :
    ShowsAll (Ttyd.init cell, Display.init vmem index crtc) [] := by
  refine ⟨fun _ => ⟨rfl, rfl⟩, ?_, rfl, ?_, ?_, fun hne => absurd rfl hne⟩
  · intro i hi _
    exact Function.update_of_ne (Nat.ne_of_lt hi) 0 fun _ => (32 : BitVec 8)
  · intro i hi
    exact conslSync_row (c := Console.init fun _ => 0) ⟨rfl, rfl⟩ false _ hi
  · intro tm j rest hcons
    cases hcons

/-- **The screen shows the current console.** In every run from the start of the driver, with
any keys, requests and interrupts, as soon as the banner has been drawn once: whenever `ttyd`
waits for its next message, the video memory shows the window of the console that is current
now, the hardware cursor is at its cursor, and the first row shows, light white on blue, the
time and the console of the last update. -/
theorem screen_shows_current (tty : ℤ) {rtc : ℕ → BitVec 8} (hrtc : Timer.ValidRtc rtc) (t : Timer) (cell : ℤ → Cell)
    (vmem : ℕ → Cell) (index : BitVec 8) (crtc : BitVec 8 → BitVec 8) {s : Ttyd} {v : Display}
    {tm : Time} {j : Fin nrTty} {rest : List (Time × Fin nrTty)}
    (hr : Reach (withHistory (shownStep tty) banners)
      (fun _ e => ∃ n, e.tm = Timer.getTime (Timer.updateJiffy^[n] (Timer.initRt rtc t)))
      ((Ttyd.init cell, Display.init vmem index crtc), []) ((s, v), (tm, j) :: rest)) :
    Displays (s.ttys s.current) v ∧
      ∀ i < 80, v.vmem i = (0x1F : BitVec 8) ++ bannerAt rest.length tm j i := by
  have hI := hr.invariant (I := fun q => ShowsAll q.1 q.2) (showsAll_init cell vmem index crtc)
    (fun q e q' hI he hst => by
      obtain ⟨hstep, hhist⟩ := withHistory_eq_some.mp hst
      obtain ⟨n, hn⟩ := he
      rw [hhist]
      exact hI.step (fun _ => hn ▸ printable_getTime hrtc t n) hstep)
  obtain ⟨htm, htext⟩ := hI.text tm j rest rfl
  refine ⟨hI.window (List.cons_ne_nil _ _), fun i hi => ?_⟩
  calc v.vmem i = drawBanner (v.banner i) := hI.row i hi
    _ = drawBanner (bannerAt rest.length tm j i) := by rw [htext i hi]
    _ = (0x1F : BitVec 8) ++ bannerAt rest.length tm j i := drawBanner_eq _ (bannerAt_lt htm _ _ _)

/-- The banner is drawn at five o'clock, and F2 pressed after that: the second console is shown,
and the banner says `tty1` until the next update. -/
theorem screen_shows_current_second : ∃ (s : Ttyd) (v : Display), s.current.val = 1 ∧ Displays (s.ttys s.current) v ∧
    v.vmem 6 = 0x1F31 ∧ v.vmem 72 = 0x1F35 := by
  obtain ⟨tm, htm⟩ : ∃ tm, tm = Timer.getTime (Timer.initRt (Timer.march5 0x05) Timer.zero) := ⟨_, rfl⟩
  have hrtc : Timer.ValidRtc (Timer.march5 0x05) := Timer.validRtc_march5 (by decide) (by decide)
  have hinit : Reach (withHistory (shownStep 2) banners)
      (fun _ e => ∃ n, e.tm = Timer.getTime (Timer.updateJiffy^[n] (Timer.initRt (Timer.march5 0x05) Timer.zero)))
      ((Ttyd.init fun _ => 0, Display.init (fun _ => 0) 0 fun _ => 0), [])
      ((Ttyd.init fun _ => 0, Display.init (fun _ => 0) 0 fun _ => 0), []) := .init
  have hupdate := hinit.step
    (a := ⟨{ MsgData.zero with src := msgHardIntr, type := msgTtyUpdate }, ⟨0, fun _ => 0⟩, tm⟩) ⟨0, htm⟩ rfl
  have hkey := hupdate.step
    (a := ⟨{ MsgData.zero with src := msgHardIntr, type := msgTtyGetkey }, ⟨60, fun _ => 0⟩, tm⟩) ⟨0, htm⟩ rfl
  obtain ⟨hdisp, hrow⟩ := screen_shows_current 2 hrtc Timer.zero (fun _ => 0) (fun _ => 0) 0 (fun _ => 0) hkey
  refine ⟨_, _, rfl, hdisp, (hrow 6 (by decide)).trans ?_, (hrow 72 (by decide)).trans ?_⟩
  · rw [htm]
    decide
  · rw [htm]
    decide

end Tty
end NanoOS
