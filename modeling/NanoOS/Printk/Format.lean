/-
# Formatted output

`vfprintf` of `lib/printk.c` walks through a format: it prints a character as it
is, and for a `%` it looks at the character behind it and prints the next
argument as a decimal or hexadecimal number, a string or a character. Behind a
`%` it prints nothing for any other character.

The strings are in the memory; a string is printed by a loop that ends at a zero
byte, and `none` says that a loop has not ended after `fuel` rounds. `reads` and
`taken` are history: where the format was read, and the arguments that were used.

Key definitions: `StringAt`, `Locals`, `directive`, `vfprintf`, `Renders`.
Key theorems: `directive_rendered`, `loop_renders`, `exists_renders`,
`vfprintf_renders`.
-/
import NanoOS.Printk.Number

namespace NanoOS
namespace Printk

open Numeral

/-- The memory that strings are in. -/
abbrev Mem := Word → BitVec 8

/-- At `p` there is the string `s`: bytes that are not zero, and then a zero. -/
def StringAt (mem : Mem) : Word → List (BitVec 8) → Prop
  | p, [] => mem p = 0
  | p, c :: s => mem p = c ∧ c ≠ 0 ∧ StringAt mem (p + 1) s

instance (mem : Mem) : ∀ (p : Word) (s : List (BitVec 8)), Decidable (StringAt mem p s)
  | p, [] => inferInstanceAs (Decidable (mem p = 0))
  | p, c :: s =>
    have := instDecidableStringAt mem (p + 1) s
    inferInstanceAs (Decidable (mem p = c ∧ c ≠ 0 ∧ StringAt mem (p + 1) s))

/-- `for (; *p != '\0'; p++) printer(*p);`, what is printed. -/
def printString (mem : Mem) : ℕ → Word → Option (List (BitVec 8))
  | 0, _ => none
  | fuel + 1, p => if mem p = 0 then some [] else (printString mem fuel (p + 1)).map (mem p :: ·)

/-- The same loop over `buffer`; `none` if it leaves the array. -/
def printBuffer : List (BitVec 8) → Option (List (BitVec 8))
  | [] => none
  | c :: buffer => if c = 0 then some [] else (printBuffer buffer).map (c :: ·)

/-- The local variables of `vfprintf`, what has been printed, where the format was
read and which arguments were used. -/
structure Locals where
  str : Word
  i : ℕ
  buffer : List (BitVec 8)
  out : List (BitVec 8)
  reads : List Word
  taken : List Word

namespace Locals

/-- `*str` is read. -/
def read (s : Locals) : Locals := { s with reads := s.reads ++ [s.str] }

/-- `str++`. -/
def advance (s : Locals) : Locals := { s with str := s.str + 1 }

/-- `printer(c)` for each byte `c`. -/
def printer (s : Locals) (printed : List (BitVec 8)) : Locals := { s with out := s.out ++ printed }

/-- `args[i++]` has been used. -/
def take (s : Locals) (arg : Word) : Locals := { s with i := s.i + 1, taken := s.taken ++ [arg] }

end Locals

/-- The body of the `switch`. -/
def directive (mem : Mem) (args : ℕ → Word) (fuel : ℕ) (s : Locals) : Option Locals :=
  if mem s.str = 100 then do -- 'd'
    let x ← intToDec (args s.i) s.buffer
    let printed ← printBuffer x.str
    return { (s.take (args s.i)).printer printed with buffer := x.str }
  else if mem s.str = 120 then do -- 'x'
    let x ← intToHex (args s.i) s.buffer
    let printed ← printBuffer x.str
    return { (s.take (args s.i)).printer printed with buffer := x.str }
  else if mem s.str = 115 then do -- 's'
    let printed ← printString mem fuel (args s.i)
    return (s.take (args s.i)).printer printed
  else if mem s.str = 99 then -- 'c'
    some ((s.take (args s.i)).printer [(args s.i).setWidth 8])
  else some s

/-- The loop of `vfprintf`. -/
def vfprintfLoop (mem : Mem) (args : ℕ → Word) : ℕ → Locals → Option Locals
  | 0, _ => none
  | fuel + 1, s =>
    if mem s.str = 0 then some s.read
    else if mem s.str ≠ 37 then vfprintfLoop mem args fuel (s.read.printer [mem s.str]).advance
    else do -- '%'
      let s ← directive mem args fuel s.read.advance.read
      vfprintfLoop mem args fuel s.advance

/-- `vfprintf`, with what is in `buffer` at first. -/
def vfprintf (mem : Mem) (args : ℕ → Word) (buffer : Vector (BitVec 8) 13) (ctl : Word) (fuel : ℕ) : Option Locals :=
  vfprintfLoop mem args fuel ⟨ctl, 0, buffer.toList, [], [], []⟩

/-! ### What a format stands for -/

/-- The argument `x` of a directive is printed as these bytes. -/
inductive Rendered (mem : Mem) : BitVec 8 → Word → List (BitVec 8) → Prop
  | dec (x : Word) : Rendered mem 100 x (intText 10 x.toInt)
  | hex (x : Word) : Rendered mem 120 x (text 16 x.toNat)
  | string {p : Word} {s : List (BitVec 8)} (h : StringAt mem p s) : Rendered mem 115 p s
  | char (x : Word) : Rendered mem 99 x [x.setWidth 8]

/-- A format and arguments, and the output: literal characters and rendered
arguments, one argument for each directive and in their order. -/
inductive Renders (mem : Mem) : List (BitVec 8) → List Word → List (BitVec 8) → Prop
  | nil : Renders mem [] [] []
  | literal {c : BitVec 8} {fmt : List (BitVec 8)} {args : List Word} {out : List (BitVec 8)} (hc : c ≠ 37)
      (h : Renders mem fmt args out) : Renders mem (c :: fmt) args (c :: out)
  | argument {d : BitVec 8} {x : Word} {r fmt : List (BitVec 8)} {args : List Word} {out : List (BitVec 8)}
      (hd : Rendered mem d x r) (h : Renders mem fmt args out) : Renders mem (37 :: d :: fmt) (x :: args) (r ++ out)

/-- Each `%` is followed by a `d`, `x`, `s` or `c`. -/
def WellFormed (fmt : List (BitVec 8)) : Prop :=
  ∀ k : ℕ, fmt[k]? = some 37 → ∃ d : BitVec 8, fmt[k + 1]? = some d ∧ (d = 100 ∨ d = 120 ∨ d = 115 ∨ d = 99)

/-- The characters behind the `%`s. -/
def directives : List (BitVec 8) → List (BitVec 8)
  | c :: d :: fmt => if c = 37 then d :: directives fmt else directives (d :: fmt)
  | _ => []

/-- An argument for each directive, and a string for each `%s`. -/
def Suits (mem : Mem) : List (BitVec 8) → List Word → Prop :=
  List.Forall₂ fun d x => d = 115 → ∃ s, StringAt mem x s

/-! ### Strings -/

theorem printString_eq {mem : Mem} {p : Word} {s : List (BitVec 8)} {fuel : ℕ} (h : StringAt mem p s)
    (hlt : s.length < fuel) : printString mem fuel p = some s := by
  induction s generalizing p fuel with
  | nil =>
    cases fuel with
    | zero => exact absurd hlt (Nat.not_lt_zero _)
    | succ fuel => exact if_pos h
  | cons c s ih =>
    obtain ⟨hc, hne, hs⟩ := h
    cases fuel with
    | zero => exact absurd hlt (Nat.not_lt_zero _)
    | succ fuel =>
      unfold printString
      rw [hc, if_neg hne, ih hs (Nat.lt_of_succ_lt_succ hlt)]
      rfl

theorem printBuffer_eq {s : List (BitVec 8)} (rest : List (BitVec 8)) (h : ∀ c ∈ s, c ≠ 0) :
    printBuffer (s ++ 0 :: rest) = some s := by
  induction s with
  | nil => rfl
  | cons c s ih =>
    show (if c = 0 then _ else (printBuffer (s ++ 0 :: rest)).map (c :: ·)) = _
    rw [if_neg (h c List.mem_cons_self), ih fun c' hc' => h c' (List.mem_cons_of_mem c hc')]
    rfl

theorem StringAt.unique {mem : Mem} {p : Word} {s t : List (BitVec 8)} (hs : StringAt mem p s)
    (ht : StringAt mem p t) : s = t := by
  induction s generalizing p t with
  | nil =>
    cases t with
    | nil => rfl
    | cons c t => exact absurd (ht.1.symm.trans hs) ht.2.1
  | cons c s ih =>
    cases t with
    | nil => exact absurd (hs.1.symm.trans ht) hs.2.1
    | cons d t =>
      obtain ⟨hc, -, hs'⟩ := hs
      obtain ⟨hd, -, ht'⟩ := ht
      rw [ih hs' ht', ← hc, ← hd]

theorem digitChar_ne_zero : ∀ d < 36, digitChar d ≠ 0 := by decide

theorem text_ne_zero {b n : ℕ} (hb : 1 < b) (hb36 : b ≤ 36) : ∀ c ∈ text b n, c ≠ 0 := by
  intro c hc
  obtain ⟨d, hd, rfl⟩ := List.mem_map.mp hc
  have hlt := numeral_lt hb d hd
  exact digitChar_ne_zero d (by omega)

theorem intText_ne_zero (z : ℤ) : ∀ c ∈ intText 10 z, c ≠ 0 := by
  intro c hc
  rw [intText_eq] at hc
  rcases List.mem_append.mp hc with hc | hc
  · split_ifs at hc
    · rw [List.mem_singleton.mp hc]
      decide
    · exact absurd hc List.not_mem_nil
  · exact text_ne_zero (by decide) (by decide) c hc

/-! ### Directives -/

/-- A number in `buffer`: what `buffer` is then, and what is printed from it. -/
theorem buffer_eq {t buffer : List (BitVec 8)} (hbuf : buffer.length = 13) (hlen : t.length ≤ 11)
    (hne : ∀ c ∈ t, c ≠ 0) : ∃ buffer', buffer'.length = 13 ∧ putAll 0 (t ++ [0]) buffer = some buffer' ∧
      printBuffer buffer' = some t := by
  refine ⟨t ++ 0 :: buffer.drop (t.length + 1), ?_, putAll_string (by omega), printBuffer_eq _ hne⟩
  rw [List.length_append, List.length_cons, List.length_drop]
  omega

/-- **A directive prints its argument**, given enough rounds for a string. -/
theorem directive_rendered {mem : Mem} {args : ℕ → Word} {s : Locals} {r : List (BitVec 8)}
    (h : Rendered mem (mem s.str) (args s.i) r) (hbuf : s.buffer.length = 13) :
    ∃ buffer : List (BitVec 8), buffer.length = 13 ∧ ∀ fuel, r.length < fuel →
      directive mem args fuel s = some { (s.take (args s.i)).printer r with buffer := buffer } := by
  generalize hd : mem s.str = d at h
  generalize hx : args s.i = x at h
  unfold directive
  rw [hd, hx]
  cases h with
  | dec =>
    obtain ⟨digit, -, heq⟩ := intToDec_eq x s.buffer
    obtain ⟨buffer, hlen, hput, hprint⟩ := buffer_eq hbuf (intText_length x) (intText_ne_zero x.toInt)
    refine ⟨buffer, hlen, fun fuel _ => ?_⟩
    rw [if_pos rfl, heq, hput]
    show (printBuffer buffer).bind _ = _
    rw [hprint]
    rfl
  | hex =>
    obtain ⟨t, -, heq⟩ := intToHex_eq x s.buffer
    obtain ⟨buffer, hlen, hput, hprint⟩ := buffer_eq hbuf (Nat.le_trans (hexText_length x) (by decide))
      (text_ne_zero (by decide) (by decide))
    refine ⟨buffer, hlen, fun fuel _ => ?_⟩
    rw [if_neg (by decide), if_pos rfl, heq, hput]
    show (printBuffer buffer).bind _ = _
    rw [hprint]
    rfl
  | string hs =>
    refine ⟨s.buffer, hbuf, fun fuel hlt => ?_⟩
    rw [if_neg (by decide), if_neg (by decide), if_pos rfl, printString_eq hs hlt]
    rfl
  | char =>
    refine ⟨s.buffer, hbuf, fun fuel _ => ?_⟩
    rw [if_neg (by decide), if_neg (by decide), if_neg (by decide), if_pos rfl]
    rfl

/-! ### The loop -/

section loop

variable {mem : Mem} {args : ℕ → Word} {s s' : Locals} {fuel : ℕ}

theorem loop_zero (h : mem s.str = 0) : vfprintfLoop mem args (fuel + 1) s = some s.read := if_pos h

theorem loop_literal {c : BitVec 8} (h : mem s.str = c) (hzero : c ≠ 0) (hc : c ≠ 37) :
    vfprintfLoop mem args (fuel + 1) s = vfprintfLoop mem args fuel (s.read.printer [c]).advance := by
  unfold vfprintfLoop
  rw [h, if_neg hzero, if_pos hc]
  cases fuel with
  | zero => rfl
  | succ fuel => rfl

theorem loop_percent (h : mem s.str = 37) : vfprintfLoop mem args (fuel + 1) s =
    (directive mem args fuel s.read.advance.read).bind fun s => vfprintfLoop mem args fuel s.advance := by
  show (if mem s.str = 0 then _ else if mem s.str ≠ 37 then _ else _) = _
  rw [h, if_neg (by decide), if_neg (by decide)]
  rfl

/-- **A format is printed as what it stands for.** -/
theorem loop_renders {fmt out : List (BitVec 8)} {xs : List Word} (hr : Renders mem fmt xs out) :
    ∀ s : Locals, StringAt mem s.str fmt → s.buffer.length = 13 → (∀ k (hk : k < xs.length), args (s.i + k) = xs[k]) →
    ∃ n, ∀ fuel, n ≤ fuel → ∃ s', vfprintfLoop mem args fuel s = some s' ∧ s'.out = s.out ++ out ∧
      s'.i = s.i + xs.length ∧ s'.taken = s.taken ++ xs := by
  induction hr with
  | nil =>
    intro s hstr _ _
    refine ⟨1, fun fuel hfuel => ?_⟩
    obtain ⟨fuel, rfl⟩ := Nat.exists_eq_add_of_le' hfuel
    exact ⟨s.read, loop_zero hstr, (List.append_nil _).symm, rfl, (List.append_nil _).symm⟩
  | @literal c fmt xs out hc _ ih =>
    intro s hstr hbuf hargs
    obtain ⟨hchar, hzero, hrest⟩ := hstr
    obtain ⟨n, hn⟩ := ih (s.read.printer [c]).advance hrest hbuf hargs
    refine ⟨n + 1, fun fuel hfuel => ?_⟩
    obtain ⟨fuel, rfl⟩ := Nat.exists_eq_add_of_le' (Nat.le_trans (Nat.le_add_left 1 n) hfuel)
    obtain ⟨s', heq, hout, hi, htaken⟩ := hn fuel (Nat.le_of_succ_le_succ hfuel)
    refine ⟨s', (loop_literal hchar hzero hc).trans heq, ?_, hi, htaken⟩
    rw [hout]
    exact List.append_assoc s.out [c] out
  | @argument d x r fmt xs out hd _ ih =>
    intro s hstr hbuf hargs
    obtain ⟨hpercent, -, hdir, -, hrest⟩ := hstr
    have hx : args s.i = x := hargs 0 (Nat.succ_pos _)
    have hrendered : Rendered mem (mem s.read.advance.read.str) (args s.read.advance.read.i) r := by
      show Rendered mem (mem (s.str + 1)) (args s.i) r
      rw [hdir, hx]
      exact hd
    obtain ⟨buffer, hlen, hdirective⟩ := directive_rendered hrendered hbuf
    obtain ⟨n, hn⟩ := ih { (s.read.advance.read.take (args s.i)).printer r with buffer := buffer }.advance hrest hlen
      fun k hk => by
        have hnext := hargs (k + 1) (Nat.succ_lt_succ hk)
        rw [List.getElem_cons_succ] at hnext
        show args (s.i + 1 + k) = xs[k]
        rw [← hnext, Nat.add_assoc, Nat.add_comm 1 k]
    refine ⟨n + r.length + 2, fun fuel hfuel => ?_⟩
    obtain ⟨fuel, rfl⟩ := Nat.exists_eq_add_of_le' (Nat.le_trans (Nat.le_add_left 1 (n + r.length + 1)) hfuel)
    obtain ⟨s', heq, hout, hi, htaken⟩ := hn fuel (by omega)
    refine ⟨s', ?_, ?_, ?_, ?_⟩
    · rw [loop_percent hpercent, hdirective fuel (by omega)]
      exact heq
    · rw [hout]
      exact List.append_assoc s.out r out
    · rw [hi, List.length_cons]
      show s.i + 1 + xs.length = _
      omega
    · rw [htaken]
      show s.taken ++ [args s.i] ++ xs = _
      rw [hx, List.append_assoc]
      rfl

end loop

/-! ### Well-formed formats -/

theorem directives_literal {c : BitVec 8} (hc : c ≠ 37) :
    ∀ fmt : List (BitVec 8), directives (c :: fmt) = directives fmt
  | [] => rfl
  | _ :: _ => if_neg hc

theorem exists_rendered {mem : Mem} {d : BitVec 8} {x : Word} (hd : d = 100 ∨ d = 120 ∨ d = 115 ∨ d = 99)
    (hx : d = 115 → ∃ s, StringAt mem x s) : ∃ r, Rendered mem d x r := by
  rcases hd with rfl | rfl | rfl | rfl
  · exact ⟨_, .dec x⟩
  · exact ⟨_, .hex x⟩
  · obtain ⟨s, hs⟩ := hx rfl
    exact ⟨s, .string hs⟩
  · exact ⟨_, .char x⟩

/-- **A well-formed format with suitable arguments stands for something.** -/
theorem exists_renders {mem : Mem} : ∀ {fmt : List (BitVec 8)} {xs : List Word}, WellFormed fmt →
    Suits mem (directives fmt) xs → ∃ out, Renders mem fmt xs out
  | [], _, _, hs => by
    cases hs
    exact ⟨[], .nil⟩
  | [c], xs, hw, hs => by
    have hc : c ≠ 37 := by
      rintro rfl
      obtain ⟨d, hd, -⟩ := hw 0 rfl
      exact absurd hd (by simp)
    cases hs
    exact ⟨[c], .literal hc .nil⟩
  | c :: d :: fmt, xs, hw, hs => by
    by_cases hc : c = 37
    · subst hc
      obtain ⟨d', hd', hdir⟩ := hw 0 rfl
      obtain rfl : d = d' := Option.some.inj hd'
      cases hs with
      | @cons _ x _ xs hx hs =>
        obtain ⟨r, hr⟩ := exists_rendered hdir hx
        obtain ⟨out, hout⟩ := @exists_renders mem fmt _ (fun k hk => hw (k + 2) hk) hs
        exact ⟨r ++ out, .argument hr hout⟩
    · rw [directives_literal hc] at hs
      obtain ⟨out, hout⟩ := @exists_renders mem (d :: fmt) _ (fun k hk => hw (k + 1) hk) hs
      exact ⟨c :: out, .literal hc hout⟩

theorem Rendered.unique {mem : Mem} {d : BitVec 8} {x : Word} {r r' : List (BitVec 8)} (h : Rendered mem d x r)
    (h' : Rendered mem d x r') : r' = r := by
  cases h with
  | dec => cases h'; rfl
  | hex => cases h'; rfl
  | string hs =>
    cases h' with
    | string hs' => exact hs'.unique hs
  | char => cases h'; rfl

theorem Renders.unique {mem : Mem} {fmt out out' : List (BitVec 8)} {xs : List Word} (h : Renders mem fmt xs out)
    (h' : Renders mem fmt xs out') : out' = out := by
  induction h generalizing out' with
  | nil =>
    cases h'
    rfl
  | literal hc _ ih =>
    cases h' with
    | literal _ h' => rw [ih h']
    | argument => exact absurd rfl hc
  | argument hd _ ih =>
    cases h' with
    | literal hc _ => exact absurd rfl hc
    | argument hd' h' => rw [ih h', hd.unique hd']

/-- **`vfprintf` renders well-formed formats.** Given a format in which each `%` is
followed by a `d`, `x`, `s` or `c`, and a suitable argument for each of them, it
ends and prints what they stand for: the literal characters and the rendered
arguments, in order. It uses each argument once, from left to right. -/
theorem vfprintf_renders {mem : Mem} {args : ℕ → Word} {ctl : Word} {fmt : List (BitVec 8)} {xs : List Word}
    (hctl : StringAt mem ctl fmt) (hwf : WellFormed fmt) (hsuits : Suits mem (directives fmt) xs)
    (hargs : ∀ k (hk : k < xs.length), args k = xs[k]) (buffer : Vector (BitVec 8) 13) :
    ∃ out, Renders mem fmt xs out ∧ (∀ out', Renders mem fmt xs out' → out' = out) ∧
      ∃ n, ∀ fuel, n ≤ fuel → ∃ s, vfprintf mem args buffer ctl fuel = some s ∧ s.out = out ∧
        s.i = xs.length ∧ s.taken = xs := by
  obtain ⟨out, hr⟩ := exists_renders hwf hsuits
  refine ⟨out, hr, fun out' hr' => hr.unique hr', ?_⟩
  obtain ⟨n, hn⟩ := @loop_renders mem args fmt out xs hr ⟨ctl, 0, buffer.toList, [], [], []⟩ hctl buffer.size_toArray
    fun k hk => (congrArg args (Nat.zero_add k)).trans (hargs k hk)
  refine ⟨n, fun fuel hfuel => ?_⟩
  obtain ⟨s, heq, hout, hi, htaken⟩ := hn fuel hfuel
  exact ⟨s, heq, hout, hi.trans (Nat.zero_add _), htaken⟩

/-- `"a%d%s"` at 0x1000, and `"hi"` behind it. -/
def greeting : Mem := fun p => [97, 37, 100, 37, 115, 0, 104, 105, 0].getD (p - 0x1000).toNat 0

/-- `printk("a%d%s", -7, "hi")` prints `a-7hi`. -/
theorem vfprintf_renders_greeting : ∃ fuel s, vfprintf greeting (fun k => if k = 0 then -7 else 0x1006)
    (Vector.replicate 13 0xCC) 0x1000 fuel = some s ∧ s.out = [97, 45, 55, 104, 105] ∧ s.taken = [-7, 0x1006] := by
  have hwf : WellFormed [97, 37, 100, 37, 115] := by
    intro k hk
    match k, hk with
    | 1, _ => exact ⟨100, rfl, Or.inl rfl⟩
    | 3, _ => exact ⟨115, rfl, Or.inr (Or.inr (Or.inl rfl))⟩
    | 0, hk => exact absurd hk (by decide)
    | 2, hk => exact absurd hk (by decide)
    | 4, hk => exact absurd hk (by decide)
    | k + 5, hk => exact absurd hk (by simp)
  have hhi : StringAt greeting 0x1006 [104, 105] := by decide
  have hsuits : Suits greeting [100, 115] [-7, 0x1006] :=
    .cons (fun h => absurd h (by decide)) (.cons (fun _ => ⟨_, hhi⟩) .nil)
  obtain ⟨out, -, honly, n, hn⟩ := @vfprintf_renders greeting (fun k => if k = 0 then -7 else 0x1006) 0x1000
    [97, 37, 100, 37, 115] [-7, 0x1006] (by decide) hwf hsuits (by decide) (Vector.replicate 13 0xCC)
  obtain ⟨s, heq, hout, -, htaken⟩ := hn n (Nat.le_refl n)
  have hr : Renders greeting [97, 37, 100, 37, 115] [-7, 0x1006] [97, 45, 55, 104, 105] :=
    .literal (by decide) (.argument (.dec (-7)) (.argument (.string hhi) .nil))
  exact ⟨n, s, heq, hout.trans (honly _ hr).symm, htaken⟩

end Printk
end NanoOS
