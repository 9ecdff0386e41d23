/-
# A few instructions of the IA-32

The processor fetches bytes from `eip` on until they are an instruction, and
executes it. Memory is whatever a `Bus` leads to: a byte that cannot be read or
written is a fault.

These are the instructions a compiler needs for a loop that counts, in the
forms it uses for that; other bytes are undefined here. Flags are left out,
since no instruction here reads one.

Key definitions: `Bus`, `decode`, `fetch`, `exec`, `step`.
Key theorems: `Bus.Holds.read32`, `fetch_of_bytes`, `step_eq`.
-/
import Mathlib.Data.Nat.Notation
import Mathlib.Logic.Function.Basic
import Mathlib.Tactic.Common

namespace X86

abbrev Byte := BitVec 8

abbrev Word := BitVec 32

/-- The registers, by their numbers in an instruction, and `eip`. -/
structure Cpu where
  reg : Fin 8 → Word
  eip : Word

/-- `%eax`. -/
def eax : Fin 8 := 0

/-- `%esp`. -/
def esp : Fin 8 := 4

/-- `%ebp`. -/
def ebp : Fin 8 := 5

/-- `%esi`. -/
def esi : Fin 8 := 6

/-- A memory: bytes that can be read or not, and written or not. -/
structure Bus (M : Type*) where
  read : M → Word → Option Byte
  write : Word → Byte → M → Option M

namespace Bus

variable {M : Type*} (B : Bus M)

/-- Four bytes, the lowest one first. -/
def read32 (m : M) (a : Word) : Option Word := do
  let b0 ← B.read m a
  let b1 ← B.read m (a + 1)
  let b2 ← B.read m (a + 2)
  let b3 ← B.read m (a + 3)
  return b3 ++ b2 ++ b1 ++ b0

/-- Some bytes, the first one first. -/
def writeBytes : Word → List Byte → M → Option M
  | _, [], m => some m
  | a, x :: xs, m => (B.write a x m).bind (writeBytes (a + 1) xs)

end Bus

/-- The bytes of a word, the lowest one first. -/
def bytesOf (x : Word) : List Byte :=
  [x.extractLsb' 0 8, x.extractLsb' 8 8, x.extractLsb' 16 8, x.extractLsb' 24 8]

theorem append_bytesOf (x : Word) :
    x.extractLsb' 24 8 ++ x.extractLsb' 16 8 ++ x.extractLsb' 8 8 ++ x.extractLsb' 0 8 = x := by
  have h24 : x.extractLsb' 24 8 ++ x.extractLsb' 16 8 = x.extractLsb' 16 16 :=
    BitVec.extractLsb'_append_extractLsb'_eq_extractLsb' rfl
  have h16 : x.extractLsb' 16 16 ++ x.extractLsb' 8 8 = x.extractLsb' 8 24 :=
    BitVec.extractLsb'_append_extractLsb'_eq_extractLsb' rfl
  have h8 : x.extractLsb' 8 24 ++ x.extractLsb' 0 8 = x.extractLsb' 0 32 :=
    BitVec.extractLsb'_append_extractLsb'_eq_extractLsb' rfl
  rw [h24, h16, h8]
  exact BitVec.extractLsb'_eq_self

/-! ### Instructions -/

inductive Instr
  | push (src : Fin 8)
  | mov (dst src : Fin 8)
  | nop
  /-- the address `disp(base)` -/
  | lea (dst base : Fin 8) (disp : Word)
  /-- `%eax` from the address `a` -/
  | load (a : Word)
  | add (dst : Fin 8) (imm : Word)
  /-- `%eax` to the address `a` -/
  | store (a : Word)
  /-- from the next instruction on -/
  | jmp (disp : Word)
  deriving DecidableEq

/-- A register field. -/
def regField (x : Byte) (k : ℕ) : Fin 8 := Fin.ofNat 8 (x.toNat / k)

/-- The instruction with exactly these bytes: the opcode, the `ModR/M` byte and
the `SIB` byte where there is one, and the constants. -/
def decode : List Byte → Option Instr
  | [op] => if op.toNat / 8 = 10 then some (.push (regField op 1)) else if op = 0x90 then some .nop else none
  | [op, x] =>
    if op = 0x89 ∧ x.toNat / 64 = 3 then some (.mov (regField x 1) (regField x 8))
    else if op = 0xeb then some (.jmp (x.signExtend 32))
    else none
  | [op, x, y] =>
    if op = 0x83 ∧ x.toNat / 8 = 24 then some (.add (regField x 1) (y.signExtend 32)) else none
  | [op, x, y, z] =>
    if op = 0x8d ∧ x.toNat / 64 = 1 ∧ regField x 1 = 4 ∧ regField y 8 = 4 then
      some (.lea (regField x 8) (regField y 1) (z.signExtend 32))
    else none
  | [op, x, y, z, w] =>
    if op = 0xa1 then some (.load (w ++ z ++ y ++ x))
    else if op = 0xa3 then some (.store (w ++ z ++ y ++ x))
    else none
  | _ => none

section

variable {M : Type*} (B : Bus M)

/-- The bytes `l` have been fetched from `a` on; at most `n` more are. -/
def fetch (m : M) (a : Word) : ℕ → List Byte → Option (Instr × ℕ)
  | 0, _ => none
  | n + 1, l => (B.read m (a + BitVec.ofNat 32 l.length)).bind fun x =>
    match decode (l ++ [x]) with
    | some i => some (i, l.length + 1)
    | none => fetch m a n (l ++ [x])

/-- What an instruction does, with `next` behind it. -/
def exec (i : Instr) (next : Word) (c : Cpu) (m : M) : Option (Cpu × M) :=
  match i with
  | .push src => (B.writeBytes (c.reg esp - 4) (bytesOf (c.reg src)) m).map fun m =>
    (⟨Function.update c.reg esp (c.reg esp - 4), next⟩, m)
  | .mov dst src => some (⟨Function.update c.reg dst (c.reg src), next⟩, m)
  | .nop => some (⟨c.reg, next⟩, m)
  | .lea dst base disp => some (⟨Function.update c.reg dst (c.reg base + disp), next⟩, m)
  | .load a => (B.read32 m a).map fun x => (⟨Function.update c.reg eax x, next⟩, m)
  | .add dst imm => some (⟨Function.update c.reg dst (c.reg dst + imm), next⟩, m)
  | .store a => (B.writeBytes a (bytesOf (c.reg eax)) m).map fun m => (⟨c.reg, next⟩, m)
  | .jmp disp => some (⟨c.reg, next + disp⟩, m)

/-- The processor takes a step. An instruction has at most 15 bytes. -/
def step (c : Cpu) (m : M) : Option (Cpu × M) :=
  (fetch B m c.eip 15 []).bind fun (i, n) => exec B i (c.eip + BitVec.ofNat 32 n) c m

variable {B} {m : M} {a : Word}

/-- The bytes `l` can be read from `a` on. -/
def Bus.Holds (B : Bus M) (m : M) (a : Word) (l : List Byte) : Prop :=
  ∀ (k : ℕ) (hk : k < l.length), B.read m (a + BitVec.ofNat 32 k) = some l[k]

theorem Bus.Holds.read32 {x : Word} (h : B.Holds m a (bytesOf x)) : B.read32 m a = some x := by
  have hlen : ∀ k < 4, k < (bytesOf x).length := fun _ hk => hk
  have h0 : B.read m a = some (x.extractLsb' 0 8) := by
    have h := h 0 (hlen 0 (by decide))
    rw [BitVec.add_zero] at h
    exact h
  have h1 : B.read m (a + 1) = some (x.extractLsb' 8 8) := h 1 (hlen 1 (by decide))
  have h2 : B.read m (a + 2) = some (x.extractLsb' 16 8) := h 2 (hlen 2 (by decide))
  have h3 : B.read m (a + 3) = some (x.extractLsb' 24 8) := h 3 (hlen 3 (by decide))
  unfold Bus.read32
  rw [h0, h1, h2, h3]
  exact congrArg some (append_bytesOf x)

/-- The bytes are fetched up to the end of the first instruction. -/
theorem fetch_of_bytes {i : Instr} : ∀ (n : ℕ) (rest l : List Byte), rest ≠ [] → rest.length ≤ n →
    B.Holds m a (l ++ rest) → decode (l ++ rest) = some i →
    (∀ k < rest.length, 0 < k → decode (l ++ rest.take k) = none) →
    fetch B m a n l = some (i, l.length + rest.length)
  | 0, rest, l, hne, hn, _, _, _ => by
    have hlen := List.length_pos_iff.mpr hne
    omega
  | n + 1, [], l, hne, _, _, _, _ => absurd rfl hne
  | n + 1, x :: rest, l, _, hn, hread, hdec, hpre => by
    have hx : B.read m (a + BitVec.ofNat 32 l.length) = some x := by
      have h := hread l.length (by simp)
      rw [List.getElem_append_right (Nat.le_refl _)] at h
      simpa using h
    have happ : l ++ [x] ++ rest = l ++ x :: rest := by simp
    unfold fetch
    rw [hx, Option.bind_some]
    cases rest with
    | nil =>
      rw [hdec]
      rfl
    | cons y rest =>
      have hnone : decode (l ++ [x]) = none := hpre 1 (by simp) (by decide)
      have hrest := fetch_of_bytes n (y :: rest) (l ++ [x]) (by simp)
        (by simp only [List.length_cons] at hn ⊢; omega) (by rw [happ]; exact hread) (by rw [happ]; exact hdec)
        (fun k hk _ => by
          rw [List.append_assoc]
          exact hpre (k + 1) (by simp only [List.length_cons] at hk ⊢; omega) (Nat.succ_pos k))
      rw [hnone]
      dsimp only
      rw [hrest]
      simp only [List.length_append, List.length_cons, List.length_nil]
      congr 2
      omega

/-- **A step**, when the bytes of an instruction are at `eip`. -/
theorem step_eq {c : Cpu} {i : Instr} {l : List Byte} (hread : B.Holds m c.eip l) (hdec : decode l = some i)
    (hpre : ∀ k < l.length, decode (l.take k) = none) (hlen : l.length ≤ 15) :
    step B c m = exec B i (c.eip + BitVec.ofNat 32 l.length) c m := by
  have hne : l ≠ [] := by
    rintro rfl
    cases hdec
  have hfetch := fetch_of_bytes (B := B) 15 l [] hne hlen hread hdec fun k hk _ => hpre k hk
  unfold step
  rw [hfetch, List.length_nil, Nat.zero_add]
  rfl

end

end X86
