/-
# Numbers as text

`int_to_dec` and `int_to_hex` of `lib/printk.c` find the digits of a number from
the last one on, in an array of their own, and then write them the other way
round to `str`, with a zero behind. What they write is the numeral of the
number, and they stay inside their arrays.

A store outside an array, or a load of an entry that was not written, ends the
conversion with `none`.

Key definitions: `intToDec`, `intToHex`.
Key theorems: `digitLoop_eq`, `hexLoop_eq`, `intToDec_eq`, `intToHex_eq`,
`number_conversion`.
-/
import NanoOS.Lib.Numeral

namespace NanoOS
namespace Printk

open Numeral

/-- An `int` or an `unsigned`. -/
abbrev Word := BitVec 32

/-- `str[i] = c`. -/
def put (i : ℕ) (c : BitVec 8) (str : List (BitVec 8)) : Option (List (BitVec 8)) :=
  if i < str.length then some (str.set i c) else none

/-- `*(ptr++) = c` for each byte of `s`, with `ptr` at `str[i]` at first. -/
def putAll : ℕ → List (BitVec 8) → List (BitVec 8) → Option (List (BitVec 8))
  | _, [], str => some str
  | i, c :: s, str => (put i c str).bind (putAll (i + 1) s)

/-- `strcpy(str, s)`: the bytes of `s` and the zero. -/
def strcpy (s : List (BitVec 8)) (str : List (BitVec 8)) : Option (List (BitVec 8)) := putAll 0 (s ++ [0]) str

/-- `for (i = n - 1; i >= 0; i--) *(ptr++) = entry(i);`, with `ptr` at `str[p]` at
first: where it is then, and `str`. -/
def copyDown (entry : ℕ → Option (BitVec 8)) : ℕ → ℕ → List (BitVec 8) → Option (ℕ × List (BitVec 8))
  | 0, p, str => some (p, str)
  | i + 1, p, str => do
    let c ← entry i
    let str ← put p c str
    copyDown entry i (p + 1) str

/-- What a conversion leaves: `str`, what it returns, and the entries of `digit`
or `t` it has used. -/
structure Converted (δ : Type) where
  str : List (BitVec 8)
  ret : ℕ
  used : List δ

/-- `for (i = 0; x; i++) { digit[i] = x % 10; x /= 10; n++; }`, with `left`
entries of `digit` behind those that are used. -/
def digitLoop : ℕ → Word → List Word → Option (List Word)
  | 0, x, digit => if x = 0 then some digit else none
  | left + 1, x, digit => if x = 0 then some digit else digitLoop left (x.sdiv 10) (digit ++ [x.srem 10])

/-- `"-2147483648"`. -/
def intMinText : List (BitVec 8) := [45, 50, 49, 52, 55, 52, 56, 51, 54, 52, 56]

/-- `int_to_dec`. -/
def intToDec (x : Word) (str : List (BitVec 8)) : Option (Converted Word) :=
  if x = 0 then do
    let str ← putAll 0 [48, 0] str
    return ⟨str, 1, []⟩
  else if x = 0x80000000 then do
    let str ← strcpy intMinText str
    return ⟨str, 11, []⟩
  else do
    let symbol := x.slt 0
    let digit ← digitLoop 12 (if symbol then -x else x) []
    let str ← if symbol then put 0 45 str else some str
    let (ptr, str) ← copyDown (fun i => digit[i]?.map fun d => d.setWidth 8 + 48) digit.length
      (if symbol then 1 else 0) str
    let str ← put ptr 0 str
    return ⟨str, if symbol then digit.length + 1 else digit.length, digit⟩

/-- `while (x) { ... x >>= 4; }`, with `left` entries of `t` behind those that are
used. -/
def hexLoop : ℕ → Word → List (BitVec 8) → Option (List (BitVec 8))
  | 0, x, t => if x = 0 then some t else none
  | left + 1, x, t =>
    if x = 0 then some t
    else
      let d := x &&& 0xf
      hexLoop left (x >>> 4) (if d < 10 then t ++ [d.setWidth 8 + 48]
        else if d < 16 then t ++ [d.setWidth 8 - 10 + 65] else t)

/-- `int_to_hex`. -/
def intToHex (x : Word) (str : List (BitVec 8)) : Option (Converted (BitVec 8)) :=
  if x = 0 then do
    let str ← putAll 0 [48, 0] str
    return ⟨str, 1, []⟩
  else do
    let t ← hexLoop 8 x []
    let (i, str) ← copyDown (fun i => t[i]?) t.length 0 str
    let str ← put i 0 str
    return ⟨str, i, t⟩

/-! ### Writing -/

theorem putAll_append (s s' : List (BitVec 8)) (i : ℕ) (str : List (BitVec 8)) :
    putAll i (s ++ s') str = (putAll i s str).bind (putAll (i + s.length) s') := by
  induction s generalizing i str with
  | nil => rfl
  | cons c s ih =>
    have hidx : i + 1 + s.length = i + (c :: s).length := by rw [List.length_cons]; omega
    show (put i c str).bind (putAll (i + 1) (s ++ s')) = ((put i c str).bind (putAll (i + 1) s)).bind _
    rw [Option.bind_assoc, ← hidx]
    exact congrArg _ (funext fun str => ih (i + 1) str)

/-- Bytes that fit take the place of those that were there. -/
theorem putAll_eq (s w rest : List (BitVec 8)) (h : s.length ≤ rest.length) :
    putAll w.length s (w ++ rest) = some (w ++ (s ++ rest.drop s.length)) := by
  induction s generalizing w rest with
  | nil => rfl
  | cons c s ih =>
    cases rest with
    | nil => exact absurd h (Nat.not_succ_le_zero _)
    | cons y rest =>
      have hlt : w.length < (w ++ y :: rest).length := by
        rw [List.length_append, List.length_cons]
        omega
      have hput : put w.length c (w ++ y :: rest) = some ((w ++ [c]) ++ rest) := by
        unfold put
        rw [if_pos hlt, List.set_append_right _ _ (Nat.le_refl _), Nat.sub_self, List.set_cons_zero,
          List.append_assoc]
        rfl
      have hrest := ih (w ++ [c]) rest (Nat.le_of_succ_le_succ h)
      rw [List.length_append, List.length_singleton] at hrest
      show (put w.length c (w ++ y :: rest)).bind (putAll (w.length + 1) s) = _
      rw [hput, Option.bind_some, hrest, List.append_assoc]
      rfl

/-- Entries that are copied downwards come out the other way round. -/
theorem copyDown_eq {entry : ℕ → Option (BitVec 8)} (l : List (BitVec 8)) (p : ℕ) (str : List (BitVec 8))
    (h : ∀ i < l.length, entry i = l[i]?) :
    copyDown entry l.length p str = (putAll p l.reverse str).map fun str => (p + l.length, str) := by
  induction l using List.reverseRecOn generalizing p str with
  | nil => rfl
  | append_singleton l c ih =>
    have hlast : entry l.length = some c := by
      rw [h l.length (by simp), List.getElem?_concat_length]
    have hbelow : ∀ i < l.length, entry i = l[i]? := by
      intro i hi
      rw [h i (by rw [List.length_append]; omega), List.getElem?_append_left hi]
    have hidx : p + 1 + l.length = p + (l.length + 1) := by omega
    rw [List.length_append, List.length_singleton, List.reverse_append, List.reverse_singleton]
    show (entry l.length).bind (fun c => (put p c str).bind fun str => copyDown entry l.length (p + 1) str) =
      ((put p c str).bind (putAll (p + 1) l.reverse)).map _
    rw [hlast, Option.bind_some, Option.map_bind]
    apply congrArg
    funext str
    rw [ih (p + 1) str hbelow, hidx]
    rfl

/-! ### Digits -/

theorem decChar : ∀ d < 10, (BitVec.ofNat 32 d).setWidth 8 + 48 = digitChar d := by decide

theorem hexChar : ∀ d < 16, (BitVec.ofNat 32 d < 10 → (BitVec.ofNat 32 d).setWidth 8 + 48 = digitChar d) ∧
    (¬ BitVec.ofNat 32 d < 10 → BitVec.ofNat 32 d < 16 ∧ (BitVec.ofNat 32 d).setWidth 8 - 10 + 65 = digitChar d) := by
  decide

theorem digitLoop_eq {left : ℕ} {x : Word} (digit : List Word) (hx : x.toNat < 2147483648)
    (hlt : x.toNat < 10 ^ left) :
    digitLoop left x digit = some (digit ++ (Nat.digits 10 x.toNat).map (BitVec.ofNat 32)) := by
  induction left generalizing x digit with
  | zero =>
    have hzero : x = 0 := BitVec.eq_of_toNat_eq (Nat.lt_one_iff.mp hlt)
    unfold digitLoop
    rw [if_pos hzero, hzero]
    simp
  | succ left ih =>
    unfold digitLoop
    by_cases hzero : x = 0
    · rw [if_pos hzero, hzero]
      simp
    · have hpos : 0 < x.toNat := Nat.pos_of_ne_zero fun h => hzero (BitVec.eq_of_toNat_eq h)
      have hmsb : x.msb = false := BitVec.msb_eq_false_iff_two_mul_lt.mpr (by omega)
      have hdiv : (x.sdiv 10).toNat = x.toNat / 10 := toNat_sdiv hmsb (by decide)
      have hrem : x.srem 10 = BitVec.ofNat 32 (x.toNat % 10) := by
        apply BitVec.eq_of_toNat_eq
        rw [toNat_srem hmsb (by decide), BitVec.toNat_ofNat]
        show x.toNat % 10 = _
        omega
      rw [if_neg hzero, ih _ (by omega) (by rw [hdiv]; omega), hdiv, hrem, List.append_assoc,
        Nat.digits_def' (by decide) hpos]
      rfl

theorem hexLoop_eq {left : ℕ} {x : Word} (t : List (BitVec 8)) (hlt : x.toNat < 16 ^ left) :
    hexLoop left x t = some (t ++ (Nat.digits 16 x.toNat).map digitChar) := by
  induction left generalizing x t with
  | zero =>
    have hzero : x = 0 := BitVec.eq_of_toNat_eq (Nat.lt_one_iff.mp hlt)
    unfold hexLoop
    rw [if_pos hzero, hzero]
    simp
  | succ left ih =>
    unfold hexLoop
    by_cases hzero : x = 0
    · rw [if_pos hzero, hzero]
      simp
    · have hpos : 0 < x.toNat := Nat.pos_of_ne_zero fun h => hzero (BitVec.eq_of_toNat_eq h)
      have hdiv : (x >>> 4).toNat = x.toNat / 16 := by
        rw [BitVec.toNat_ushiftRight, Nat.shiftRight_eq_div_pow]
      have hlow : x &&& 0xf = BitVec.ofNat 32 (x.toNat % 16) := by
        apply BitVec.eq_of_toNat_eq
        rw [BitVec.toNat_and, BitVec.toNat_ofNat]
        show x.toNat &&& (2 ^ 4 - 1) = _
        rw [Nat.and_two_pow_sub_one_eq_mod]
        omega
      obtain ⟨hsmall, hlarge⟩ := hexChar (x.toNat % 16) (Nat.mod_lt _ (by decide))
      have hentry : (if BitVec.ofNat 32 (x.toNat % 16) < 10 then
          t ++ [(BitVec.ofNat 32 (x.toNat % 16)).setWidth 8 + 48]
          else if BitVec.ofNat 32 (x.toNat % 16) < 16 then
          t ++ [(BitVec.ofNat 32 (x.toNat % 16)).setWidth 8 - 10 + 65] else t) = t ++ [digitChar (x.toNat % 16)] := by
        by_cases hd : BitVec.ofNat 32 (x.toNat % 16) < 10
        · rw [if_pos hd, hsmall hd]
        · rw [if_neg hd, if_pos (hlarge hd).1, (hlarge hd).2]
      rw [if_neg hzero]
      dsimp only
      rw [hlow, hentry, ih _ (by rw [hdiv]; omega), hdiv, List.append_assoc, Nat.digits_def' (by decide) hpos]
      rfl

/-! ### The conversions -/

theorem intMinText_eq : intText 10 (-2147483648) = intMinText := by decide

/-- Digits that are written the other way round are the numeral. -/
theorem copyDown_text {b n : ℕ} {entry : ℕ → Option (BitVec 8)} (hn : n ≠ 0)
    (h : ∀ i, entry i = ((Nat.digits b n).map digitChar)[i]?) (p : ℕ) (str : List (BitVec 8)) :
    copyDown entry (Nat.digits b n).length p str =
      (putAll p (text b n) str).map fun str => (p + (text b n).length, str) := by
  have hdown := copyDown_eq ((Nat.digits b n).map digitChar) p str fun i _ => h i
  have hlen : (text b n).length = (Nat.digits b n).length := by
    rw [text_of_ne_zero hn, List.length_reverse, List.length_map]
  rw [List.length_map, ← text_of_ne_zero hn] at hdown
  rw [hlen]
  exact hdown

theorem copyDown_zero {α : Type} {b n : ℕ} {entry : ℕ → Option (BitVec 8)} (hn : n ≠ 0)
    (h : ∀ i, entry i = ((Nat.digits b n).map digitChar)[i]?) (p : ℕ) (str : List (BitVec 8))
    (mk : ℕ → List (BitVec 8) → α) :
    ((copyDown entry (Nat.digits b n).length p str).bind fun r => (put r.1 0 r.2).bind fun str =>
      some (mk r.1 str)) =
      (putAll p (text b n ++ [0]) str).map (mk (p + (text b n).length)) := by
  rw [copyDown_text hn h, putAll_append]
  cases putAll p (text b n) str with
  | none => rfl
  | some str =>
    show ((put (p + (text b n).length) 0 str).bind _) = ((put (p + (text b n).length) 0 str).bind (putAll _ [])).map _
    cases put (p + (text b n).length) 0 str with
    | none => rfl
    | some str => rfl

theorem decEntries (n i : ℕ) : (((Nat.digits 10 n).map (BitVec.ofNat 32))[i]?.map fun d => d.setWidth 8 + 48) =
    ((Nat.digits 10 n).map digitChar)[i]? := by
  rw [← List.getElem?_map, List.map_map]
  apply congrArg (·[i]?)
  apply List.map_congr_left
  intro d hd
  exact decChar d (Nat.digits_lt_base (by decide) hd)

theorem magnitude {x : Word} (hmin : x ≠ 0x80000000) :
    (if x.slt 0 then -x else x).toNat = x.toInt.natAbs ∧ x.toInt.natAbs < 2147483648 ∧
      (x.slt 0 = true ↔ x.toInt < 0) := by
  have hne : x.toNat ≠ 2147483648 := fun h => hmin (BitVec.eq_of_toNat_eq h)
  have hslt : x.slt 0 = true ↔ x.toInt < 0 := BitVec.slt_iff_toInt_lt
  have hint := BitVec.toInt_eq_toNat_cond x
  refine ⟨?_, by split_ifs at hint <;> omega, hslt⟩
  by_cases hneg : x.slt 0 = true
  · have hlt := hslt.mp hneg
    rw [if_pos hneg, BitVec.toNat_neg]
    split_ifs at hint
    all_goals omega
  · have hge : ¬ x.toInt < 0 := fun h => hneg (hslt.mpr h)
    rw [if_neg hneg]
    split_ifs at hint
    all_goals omega

/-- **`int_to_dec` writes the numeral and a zero**, and nothing else, and uses at
most ten entries of `digit`. -/
theorem intToDec_eq (x : Word) (str : List (BitVec 8)) : ∃ digit : List Word, digit.length ≤ 10 ∧
    intToDec x str = (putAll 0 (intText 10 x.toInt ++ [0]) str).map
      fun str => ⟨str, (intText 10 x.toInt).length, digit⟩ := by
  unfold intToDec
  by_cases hzero : x = 0
  · subst hzero
    refine ⟨[], Nat.zero_le 10, ?_⟩
    exact Option.map_eq_bind.symm
  rw [if_neg hzero]
  by_cases hmin : x = 0x80000000
  · subst hmin
    refine ⟨[], Nat.zero_le 10, ?_⟩
    have htext : intText 10 (0x80000000 : Word).toInt = intMinText := intMinText_eq
    rw [if_pos rfl, htext]
    exact Option.map_eq_bind.symm
  rw [if_neg hmin]
  obtain ⟨hmag, hlt, hslt⟩ := magnitude hmin
  have hne : x.toInt.natAbs ≠ 0 := fun h => hzero (BitVec.eq_of_toInt_eq (Int.natAbs_eq_zero.mp h))
  have hdigits := @digitLoop_eq 12 (if x.slt 0 then -x else x) [] (by omega) (by rw [hmag]; omega)
  have hlen : (text 10 x.toInt.natAbs).length = (Nat.digits 10 x.toInt.natAbs).length := by
    rw [text_of_ne_zero hne, List.length_reverse, List.length_map]
  rw [hmag, List.nil_append] at hdigits
  refine ⟨(Nat.digits 10 x.toInt.natAbs).map (BitVec.ofNat 32), ?_, ?_⟩
  · rw [List.length_map]
    exact (Nat.digits_length_le_iff (by decide) _).mpr (by omega)
  · dsimp only
    rw [hdigits]
    have hend := fun p str => @copyDown_zero (Converted Word) 10 _ _ hne (decEntries x.toInt.natAbs) p str
    by_cases hneg : x.slt 0 = true
    · have htext : intText 10 x.toInt = 45 :: text 10 x.toInt.natAbs := if_pos (hslt.mp hneg)
      simp only [hneg, if_true, Option.bind_eq_bind, Option.bind_some, Option.pure_def, List.length_map, htext,
        List.length_cons, hlen]
      show _ = ((put 0 45 str).bind (putAll 1 (text 10 x.toInt.natAbs ++ [0]))).map _
      rw [Option.map_bind]
      apply congrArg
      funext str
      exact hend 1 str fun _ str => ⟨str, (Nat.digits 10 x.toInt.natAbs).length + 1, _⟩
    · have htext : intText 10 x.toInt = text 10 x.toInt.natAbs := if_neg fun h => hneg (hslt.mpr h)
      simp only [hneg, if_false, Bool.false_eq_true, Option.bind_eq_bind, Option.bind_some, Option.pure_def,
        List.length_map, htext, hlen]
      exact hend 0 str fun _ str => ⟨str, (Nat.digits 10 x.toInt.natAbs).length, _⟩

/-- **`int_to_hex` writes the numeral and a zero**, and nothing else, and uses no
more than the eight bytes of `t`. -/
theorem intToHex_eq (x : Word) (str : List (BitVec 8)) : ∃ t : List (BitVec 8), t.length ≤ 8 ∧
    intToHex x str = (putAll 0 (text 16 x.toNat ++ [0]) str).map fun str => ⟨str, (text 16 x.toNat).length, t⟩ := by
  unfold intToHex
  by_cases hzero : x = 0
  · subst hzero
    refine ⟨[], Nat.zero_le 8, ?_⟩
    exact Option.map_eq_bind.symm
  rw [if_neg hzero]
  have hne : x.toNat ≠ 0 := fun h => hzero (BitVec.eq_of_toNat_eq h)
  have hloop := @hexLoop_eq 8 x [] (by omega)
  rw [List.nil_append] at hloop
  refine ⟨(Nat.digits 16 x.toNat).map digitChar, ?_, ?_⟩
  · rw [List.length_map]
    exact (Nat.digits_length_le_iff (by decide) _).mpr (by omega)
  · simp only [hloop, Option.bind_eq_bind, Option.bind_some, Option.pure_def, List.length_map]
    have hend := @copyDown_zero (Converted (BitVec 8)) 16 _ _ hne (fun _ => rfl) 0 str
      fun i str => ⟨str, i, (Nat.digits 16 x.toNat).map digitChar⟩
    rw [Nat.zero_add] at hend
    exact hend

theorem putAll_string {s str : List (BitVec 8)} (h : s.length < str.length) :
    putAll 0 (s ++ [0]) str = some (s ++ 0 :: str.drop (s.length + 1)) := by
  have hall := putAll_eq (s ++ [0]) [] str (by rw [List.length_append]; exact h)
  rw [List.length_append, List.append_assoc] at hall
  exact hall

theorem intText_length (x : Word) : (intText 10 x.toInt).length ≤ 11 := by
  have hlen : (text 10 x.toInt.natAbs).length ≤ 10 := by
    apply text_length_le (by decide) (by decide)
    have hint := BitVec.toInt_eq_toNat_cond x
    split_ifs at hint
    all_goals omega
  rw [intText_eq, List.length_append]
  split_ifs
  · exact Nat.add_le_add (Nat.le_refl 1) hlen
  · exact Nat.le_succ_of_le (Nat.add_le_add (Nat.le_refl 0) hlen)

/-- The text of an `unsigned` has at most eight characters. -/
theorem hexText_length (x : Word) : (text 16 x.toNat).length ≤ 8 :=
  text_length_le (by decide) (by decide) x.isLt

/-- **The conversions round-trip and fit.** `int_to_dec` writes the decimal numeral
of its argument, with a minus sign in front if it is negative, and `int_to_hex` the
hexadecimal one; with a zero behind, in at most 12 and 9 bytes, and nothing else
of the array they are given. They return the length, and use at most ten entries
of `digit` and eight of `t`. -/
theorem number_conversion (x : Word) :
    (∃ s t, s = (if x.toInt < 0 then [45#8] else []) ++ t ∧ IsNumeral 10 t x.toInt.natAbs ∧
      parseInt 10 s = some x.toInt ∧ s.length + 1 ≤ 12 ∧
      ∀ str, s.length < str.length → ∃ digit, digit.length ≤ 10 ∧
        intToDec x str = some ⟨s ++ 0 :: str.drop (s.length + 1), s.length, digit⟩) ∧
    (∃ s, IsNumeral 16 s x.toNat ∧ s.length + 1 ≤ 9 ∧
      ∀ str, s.length < str.length → ∃ t, t.length ≤ 8 ∧
        intToHex x str = some ⟨s ++ 0 :: str.drop (s.length + 1), s.length, t⟩) := by
  constructor
  · refine ⟨intText 10 x.toInt, text 10 x.toInt.natAbs, intText_eq 10 x.toInt,
      text_isNumeral (by decide) (by decide) _, parseInt_intText (by decide) (by decide) _,
      Nat.succ_le_succ (intText_length x), fun str hlt => ?_⟩
    obtain ⟨digit, hlen, heq⟩ := intToDec_eq x str
    rw [putAll_string hlt] at heq
    exact ⟨digit, hlen, heq⟩
  · refine ⟨text 16 x.toNat, text_isNumeral (by decide) (by decide) _, Nat.succ_le_succ (hexText_length x),
      fun str hlt => ?_⟩
    obtain ⟨t, hlen, heq⟩ := intToHex_eq x str
    rw [putAll_string hlt] at heq
    exact ⟨t, hlen, heq⟩

/-- -45 and 0xBEEF in the 13 bytes of `vfprintf`. -/
example : (intToDec (-45) (List.replicate 13 1)).map (·.str) = some ([45, 52, 53, 0] ++ List.replicate 9 1) ∧
    (intToHex 0xBEEF (List.replicate 13 1)).map (·.str) = some ([66, 69, 69, 70, 0] ++ List.replicate 8 1) := by
  decide

end Printk
end NanoOS
