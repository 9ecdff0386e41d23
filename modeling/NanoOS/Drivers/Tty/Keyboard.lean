/-
# The keyboard

`readkey` keeps count of the modifier keys that are down and looks up the
character of a key in the table `keychar`: letters by Shift and Caps Lock,
other keys by Shift.

Key definitions: `Keys`, `Keys.char`, `Keys.press`, `Keys.release`.
-/
import NanoOS.Drivers.Tty.Console

namespace NanoOS
namespace Tty

/-- `K_CAPS`. -/
def kCaps : ℕ := 58

/-- `K_LSHFT`. -/
def kLshft : ℕ := 42

/-- `K_RSHFT`. -/
def kRshft : ℕ := 54

/-- `K_CTRL`. -/
def kCtrl : ℕ := 29

/-- `K_ALT`. -/
def kAlt : ℕ := 56

/-- `K_F1`. -/
def kF1 : ℕ := 59

/-- `K_F6`. -/
def kF6 : ℕ := 64

/-- `K_F12`. -/
def kF12 : ℕ := 88

/-- `caps`, `ctrl`, `alt` and `shft`. -/
structure Keys where
  caps : ℤ
  ctrl : ℤ
  alt : ℤ
  shft : ℤ
  deriving DecidableEq

/-- `keychar[0]`, up to its last entry that is not 0. -/
def keychar0 : List Char :=
  ['\x00', '\x00', '1', '2', '3', '4', '5', '6', '7', '8',
    '9', '0', '-', '=', '\x00', '\x00', 'q', 'w', 'e', 'r',
    't', 'y', 'u', 'i', 'o', 'p', '[', ']', '\x00', '\x00',
    'a', 's', 'd', 'f', 'g', 'h', 'j', 'k', 'l', ';',
    '\'', '`', '\x00', '\\', 'z', 'x', 'c', 'v', 'b', 'n',
    'm', ',', '.', '/', '\x00', '\x00', '\x00', ' ']

/-- `keychar[1]`. -/
def keychar1 : List Char :=
  ['\x00', '\x00', '!', '@', '#', '$', '%', '^', '&', '*',
    '(', ')', '_', '+', '\x00', '\x00', 'Q', 'W', 'E', 'R',
    'T', 'Y', 'U', 'I', 'O', 'P', '\x7b', '\x7d', '\x00', '\x00',
    'A', 'S', 'D', 'F', 'G', 'H', 'J', 'K', 'L', ':',
    '"', '~', '\x00', '|', 'Z', 'X', 'C', 'V', 'B', 'N',
    'M', '<', '>', '?', '\x00', '\x00', '\x00', ' ']

/-- `keychar[row][code]`. -/
def keychar (row : ℤ) (code : ℕ) : ℕ := ((if row = 0 then keychar0 else keychar1).getD code '\x00').toNat

namespace Keys

/-- All counters are 0. -/
def zero : Keys := ⟨0, 0, 0, 0⟩

/-- A key is let go. -/
def release (code : ℕ) (k : Keys) : Keys :=
  if code = kLshft then { k with shft := k.shft - 1 }
  else if code = kRshft then { k with shft := k.shft - 1 }
  else if code = kCtrl then { k with ctrl := k.ctrl - 1 }
  else if code = kAlt then { k with alt := k.alt - 1 }
  else if code = kCaps then { k with caps := k.caps % 2 }
  else k

/-- A modifier key is pressed. -/
def press (code : ℕ) (k : Keys) : Keys :=
  if code = kLshft then { k with shft := k.shft + 1 }
  else if code = kRshft then { k with shft := k.shft + 1 }
  else if code = kCtrl then { k with ctrl := k.ctrl + 1 }
  else if code = kAlt then { k with alt := k.alt + 1 }
  else if code = kCaps then { k with caps := k.caps + 1 }
  else k

/-- The character of a key, 0 if it has none. -/
def char (code : ℕ) (k : Keys) : ℕ :=
  if 'a'.toNat ≤ keychar 0 code ∧ keychar 0 code ≤ 'z'.toNat then
    keychar (if k.shft % 2 = k.caps % 2 then 0 else 1) code
  else keychar (k.shft % 2) code

end Keys

/-- The keys `readkey` hands to `consl_feed`. -/
def feeds (code : ℕ) : Bool :=
  (code : ℤ) ∈ [kEntr, kBack, kLeft, kRight, kHome, kEnd, kDel] || (kF1 ≤ code && code ≤ kF6)

end Tty
end NanoOS
