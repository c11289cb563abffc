import Mathlib.Data.Char
import Mathlib.Data.List.Lex
import Mathlib.Tactic

/-!
# Byte strings

A `std::string` is a list of characters, one for each byte. Only the routines
the peg code calls on strings are modelled: prefix test, splitting at a
separator and the number conversion of the C library.
-/
namespace BitBay

abbrev CString := List Char

instance instIsTransCString : IsTrans CString (· ≤ ·) := ⟨fun _ _ _ => le_trans⟩

instance instAntisymmCString : @Std.Antisymm CString (· ≤ ·) := ⟨fun _ _ => le_antisymm⟩

instance instTotalCString : @Std.Total CString (· ≤ ·) := ⟨le_total⟩

namespace CString

def startsWith (s : CString) (p : String) : Bool := p.toList.isPrefixOf s

/-- `boost::split` at every occurrence of one separator. -/
def split (sep : Char) (s : CString) : List CString := s.splitOn sep

/-- What a C function sees of the string: it ends at the first zero byte. -/
def cStr (s : CString) : CString := s.takeWhile (fun c => c.toNat ≠ 0)

def isSpace (c : Char) : Bool := c.toNat = 32 ∨ 9 ≤ c.toNat ∧ c.toNat ≤ 13

/-- Value of a digit or letter, as the C library counts bases up to 36. -/
def digitVal (c : Char) : Option ℕ :=
  let n := c.toNat
  if 48 ≤ n ∧ n ≤ 57 then some (n - 48)
  else if 97 ≤ n ∧ n ≤ 122 then some (n - 87)
  else if 65 ≤ n ∧ n ≤ 90 then some (n - 55)
  else none

def isDigit (base : ℕ) (c : Char) : Bool := (digitVal c).any (· < base)

def takeDigits (base : ℕ) (s : CString) : List ℕ := (s.takeWhile (isDigit base)).filterMap digitVal

def ofDigits (base : ℕ) (ds : List ℕ) : ℕ := ds.foldl (fun acc d => acc * base + d) 0

/-- Base 16 after `0x`, base 8 after another leading zero, else base 10. -/
def detectBase : CString → ℕ × CString
  | '0' :: x :: d :: rest =>
    if (x = 'x' ∨ x = 'X') ∧ isDigit 16 d then (16, d :: rest) else (8, '0' :: x :: d :: rest)
  | '0' :: rest => (8, '0' :: rest)
  | s => (10, s)

def takeSign : CString → Bool × CString
  | '-' :: rest => (true, rest)
  | '+' :: rest => (false, rest)
  | s => (false, s)

/-- `strtol` with base 0, saturating at the bounds of a 64-bit `long`; `none`
stands for an end pointer that did not move. -/
def strtol (s : CString) : Option ℤ :=
  let signed := takeSign (s.cStr.dropWhile isSpace)
  let based := detectBase signed.2
  match takeDigits based.1 based.2 with
  | [] => none
  | ds =>
    let v : ℤ := ofDigits based.1 ds
    some (max (-2 ^ 63) (min (2 ^ 63 - 1) (if signed.1 then -v else v)))

example : strtol " 0x1F:".toList = some 31 := by decide

end CString

end BitBay
