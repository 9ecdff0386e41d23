/-
# The random driver

The driver computes each byte from the one before it. Its readers come in any order and ask
for any number of bytes, and their buffers lie anywhere; what they get, put together, is one
sequence of the generator. It repeats after 256 bytes, and in 256 bytes in a row every
value comes once.

Key definitions: `srand`, `randomStep`, `buffer`, `handed`.
Key theorems: `rand_iterate_eq_iff`, `fillRandom_spec`, `random_bytes`.
-/
import NanoOS.Lib.Congruential
import NanoOS.Lib.Trans
import NanoOS.Drivers.Plain
import NanoOS.Drivers.Timer.Clock

namespace NanoOS
namespace Plain

open Store Trans Congruential

/-- `next` after `srand()`, where `get_time` finds `tm`. -/
def srand (tm : Time) : BitVec 8 := rand (BitVec.ofInt 8 (tm.hour * 3600 + tm.minute * 60 + tm.second))

/-- What happens next: a message for the driver, or other memory changes. -/
inductive RandomAct
  | message (m : MsgData)
  | other (bytes : ℕ → BitVec 8)

/-- The step. -/
def randomStep (me : ℤ) (s : Store) : RandomAct → Option Store
  | .message m => ((randomDriverThread me m s).map Prod.snd).toOption
  | .other bytes => some { s with mem := bytes }

/-- The number of bytes that a message asks for is an `int`. -/
def RandomAct.InRange : RandomAct → Prop
  | .message m => -2147483648 ≤ m.len ∧ m.len < 2147483648
  | .other _ => True

instance : DecidablePred RandomAct.InRange
  | .message m => inferInstanceAs (Decidable (-2147483648 ≤ m.len ∧ m.len < 2147483648))
  | .other _ => inferInstanceAs (Decidable True)

/-- The buffer of a reader. The loop compares `int`s, so one with a negative size gets nothing. -/
def buffer (m : MsgData) (s : Store) : List (BitVec 8) :=
  (List.range m.len.toNat).map fun (i : ℕ) => s.mem (u32 (m.buf + i))

/-- The bytes that were handed out, after those of `l`. -/
def handed (me : ℤ) (s : Store) (a : RandomAct) (l : List (BitVec 8)) : List (BitVec 8) :=
  match a with
  | .message m =>
    match randomDriverThread me m s with
    | .ok (_, s') => if m.type = devRead then l ++ buffer m s' else l
    | .error _ => l
  | .other _ => l

/-! ### The generator -/

theorem rand_modEq {x : BitVec 8} {y : ℤ} (h : (x.toNat : ℤ) ≡ y [ZMOD 2 ^ 8]) :
    ((rand x).toNat : ℤ) ≡ lcg 1103515245 12345 y [ZMOD 2 ^ 8] := by
  have hval : (rand x).toNat = (x.toNat * 109 + 57) % 256 := by
    unfold rand
    rw [BitVec.toNat_add, BitVec.toNat_mul, Nat.mod_add_mod]
    rfl
  unfold lcg
  unfold Int.ModEq at *
  rw [hval]
  push_cast
  omega

theorem rand_iterate_modEq (x : BitVec 8) (n : ℕ) :
    ((rand^[n] x).toNat : ℤ) ≡ (lcg 1103515245 12345)^[n] x.toNat [ZMOD 2 ^ 8] := by
  induction n with
  | zero => exact Int.ModEq.refl _
  | succ n ih =>
    rw [Function.iterate_succ_apply', Function.iterate_succ_apply']
    exact rand_modEq ih

/-- The generator comes back after 256 steps, and not before. -/
theorem rand_iterate_eq_iff (x : BitVec 8) (i j : ℕ) : rand^[i] x = rand^[j] x ↔ i % 256 = j % 256 := by
  have hperiod := iterate_lcg_eq_iff (a := 1103515245) (c := 12345) (by decide) (by decide) 8 x.toNat i j
  have hi := rand_iterate_modEq x i
  have hj := rand_iterate_modEq x j
  have hilt := (rand^[i] x).isLt
  have hjlt := (rand^[j] x).isLt
  refine Iff.trans ?_ hperiod
  constructor
  · intro h
    rw [h] at hi
    exact hi.symm.trans hj
  · intro h
    have hmod := (hi.trans h).trans hj.symm
    apply BitVec.eq_of_toNat_eq
    unfold Int.ModEq at hmod
    omega

/-! ### A request -/

/-- The loop writes the next values, one after the other. -/
theorem fillRandom_spec (dest : ℤ) (s : Store) : ∀ {n : ℕ}, n ≤ 4294967296 →
    (s.fillRandom dest n).next = rand^[n] s.next ∧
      ∀ i < n, (s.fillRandom dest n).mem (u32 (dest + i)) = rand^[i + 1] s.next
  | 0, _ => ⟨rfl, fun i hi => absurd hi (Nat.not_lt_zero i)⟩
  | n + 1, hn => by
    obtain ⟨hnext, hmem⟩ := fillRandom_spec dest s (Nat.le_of_succ_le hn)
    have hstep : s.fillRandom dest (n + 1) = ⟨Function.update (s.fillRandom dest n).mem (u32 (dest + n))
        (rand (s.fillRandom dest n).next), rand (s.fillRandom dest n).next⟩ := by
      unfold fillRandom
      rw [List.range_succ]
      show List.foldl _ s (List.flatMap _ (List.range n ++ [n])) = _
      rw [List.flatMap_append, List.foldl_append]
      rfl
    rw [hstep, hnext]
    refine ⟨(Function.iterate_succ_apply' rand n _).symm, fun i hi => ?_⟩
    dsimp only
    by_cases hin : i = n
    · rw [hin, Function.update_self, Function.iterate_succ_apply']
    · have hne : u32 (dest + i) ≠ u32 (dest + n) := by
        unfold u32
        omega
      rw [Function.update_of_ne hne]
      exact hmem i (by omega)

theorem buffer_fillRandom {m : MsgData} (hlen : m.len.toNat ≤ 4294967296) (s : Store) :
    buffer m (s.fillRandom m.buf m.len.toNat) = (List.range m.len.toNat).map fun i => rand^[i + 1] s.next := by
  apply List.map_congr_left
  intro i hi
  exact (fillRandom_spec m.buf s hlen).2 i (List.mem_range.mp hi)

/-! ### Every run -/

/-- What was handed out so far is what the generator gave, from `seed` on. -/
def Drawn (seed : BitVec 8) (p : Store × List (BitVec 8)) : Prop :=
  p.1.next = rand^[p.2.length] seed ∧ p.2 = (List.range p.2.length).map fun i => rand^[i + 1] seed

theorem Drawn.read {seed : BitVec 8} {s : Store} {l : List (BitVec 8)} (h : Drawn seed (s, l)) {m : MsgData}
    (hlen : m.len.toNat ≤ 4294967296) :
    Drawn seed (s.fillRandom m.buf m.len.toNat, l ++ buffer m (s.fillRandom m.buf m.len.toNat)) := by
  obtain ⟨hnext, hl⟩ := h
  dsimp only at hnext hl
  have hbuffer := buffer_fillRandom hlen s
  have hlength : (l ++ buffer m (s.fillRandom m.buf m.len.toNat)).length = l.length + m.len.toNat := by
    rw [List.length_append, hbuffer, List.length_map, List.length_range]
  constructor
  · dsimp only
    rw [hlength, (fillRandom_spec m.buf s hlen).1, hnext, ← Function.iterate_add_apply, Nat.add_comm]
  · dsimp only
    rw [hlength, List.range_add, List.map_append, ← hl, hbuffer, List.map_map]
    congr 1
    apply List.map_congr_left
    intro i _
    rw [hnext, ← Function.iterate_add_apply]
    congr 1
    dsimp only
    omega

theorem Drawn.step {seed : BitVec 8} {me : ℤ} {s s' : Store} {l : List (BitVec 8)} {a : RandomAct}
    (h : Drawn seed (s, l)) (ha : a.InRange) (hst : randomStep me s a = some s') :
    Drawn seed (s', handed me s a l) := by
  cases a with
  | other bytes =>
    cases hst
    exact h
  | message m =>
    unfold randomStep at hst
    unfold handed
    unfold randomDriverThread round at hst ⊢
    dsimp only at hst ⊢
    by_cases hread : m.type = devRead
    · rw [if_pos hread] at hst ⊢
      cases hst
      dsimp only
      rw [if_pos hread]
      obtain ⟨-, hlt⟩ : -2147483648 ≤ m.len ∧ m.len < 2147483648 := ha
      exact h.read (by omega)
    rw [if_neg hread] at hst ⊢
    by_cases hwrite : m.type = devWrite
    · rw [if_pos hwrite] at hst ⊢
      cases hst
      dsimp only
      rw [if_neg hread]
      exact h
    · rw [if_neg hwrite] at hst
      cases hst

/-- **Two bytes are the same iff they are a multiple of 256 apart.** This holds of all bytes that
the driver has handed out since it was seeded, to whichever readers and in whichever portions. -/
theorem random_bytes (me : ℤ) (tm : Time) (mem : ℕ → BitVec 8) {p : Store × List (BitVec 8)}
    (hr : Reach (withHistory (randomStep me) (handed me)) (fun _ a => a.InRange) (⟨mem, srand tm⟩, []) p)
    {i j : ℕ} (hi : i < p.2.length) (hj : j < p.2.length) : p.2[i] = p.2[j] ↔ i % 256 = j % 256 := by
  have hdrawn : Drawn (srand tm) p := by
    refine hr.invariant (I := Drawn (srand tm)) ⟨rfl, rfl⟩ ?_
    rintro ⟨s, l⟩ a ⟨s', l'⟩ h ha hst
    obtain ⟨hstep, hl⟩ := withHistory_eq_some.mp hst
    dsimp only at hstep hl
    rw [hl]
    exact h.step ha hstep
  have hat : ∀ k (hk : k < p.2.length), p.2[k] = rand^[k + 1] (srand tm) := by
    intro k hk
    have hget := List.getElem_of_eq hdrawn.2 hk
    rw [List.getElem_map, List.getElem_range] at hget
    exact hget
  rw [hat i hi, hat j hj, rand_iterate_eq_iff]
  omega

/-- A request for `len` bytes. -/
def draw (len : ℤ) : RandomAct := .message (devRwMsg 20 devRead 20 4096 0 len ⟨"random", 12, 0⟩)

/-- At midnight two readers get three bytes and two, and one that asks for a negative number none;
the first byte and the last are not the same. -/
theorem random_bytes_five : ∃ l : List (BitVec 8), l.length = 5 ∧ l[0]? ≠ l[4]? := by
  obtain ⟨p, hr, hlen⟩ : ∃ p : Store × List (BitVec 8),
      Reach (withHistory (randomStep 12) (handed 12)) (fun _ a => a.InRange)
        (⟨fun _ => 0, srand ⟨0, 1, 1, 0, 0, 0⟩⟩, []) p ∧ p.2.length = 5 :=
    Reach.exists_of_exec [draw 3, .other fun _ => 7, draw (-4), draw 2] (by decide +kernel)
  refine ⟨p.2, hlen, fun heq => ?_⟩
  rw [List.getElem?_eq_getElem (by omega), List.getElem?_eq_getElem (by omega), Option.some.injEq,
    random_bytes 12 _ _ hr (by omega) (by omega)] at heq
  exact absurd heq (by decide)

end Plain
end NanoOS
