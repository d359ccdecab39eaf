import Mathlib.Algebra.Group.Int.Defs
import Mathlib.Data.List.Basic

/-!
# Texts

A text is a sequence of bytes, as a `std::string` is one. The functions follow the C and C++
library functions of the same purpose, in the "C" locale.
-/

abbrev Text := List UInt8

namespace Text

/-- The byte of an ASCII character. -/
def ch (c : Char) : UInt8 := UInt8.ofNat c.toNat

/-- The bytes of an ASCII string literal. -/
def str (s : String) : Text := s.toList.map ch

/-- `isspace`. -/
def isSpace (b : UInt8) : Bool := b = 32 || (9 ≤ b && b ≤ 13)

/-- `isdigit`. -/
def isDigit (b : UInt8) : Bool := 48 ≤ b && b ≤ 57

/-- `toupper`. -/
def toUpper (b : UInt8) : UInt8 := if 97 ≤ b && b ≤ 122 then b - 32 else b

def upper (s : Text) : Text := s.map toUpper

/-- Drop the bytes with a property at the end. -/
def dropEnd (p : UInt8 → Bool) (s : Text) : Text := (s.reverse.dropWhile p).reverse

/-- Drop the bytes with a property at both ends. -/
def trim (p : UInt8 → Bool) (s : Text) : Text := dropEnd p (s.dropWhile p)

/-- The text up to the first zero byte: `std::string(s.c_str())`. -/
def cStr (s : Text) : Text := s.takeWhile (· ≠ 0)

/-- `find` for a text: the index of the first occurrence. -/
def find (pat : Text) : Text → Option ℕ
  | [] => if pat = [] then some 0 else none
  | b :: s => if pat.isPrefixOf (b :: s) then some 0 else (find pat s).map (· + 1)

/-- The rest behind the first occurrence of a byte. -/
def after (b : UInt8) : Text → Option Text
  | [] => none
  | b' :: s => if b' = b then some s else after b s

/-- The text before the first occurrence of a byte, and the rest behind it. -/
def cut (b : UInt8) : Text → Option (Text × Text)
  | [] => none
  | b' :: s => if b' = b then some ([], s) else (cut b s).map fun p => (b' :: p.1, p.2)

/-- The pieces that repeated `std::getline(ss, piece, delim)` extracts. A text without further
bytes yields no piece, so an empty piece at the end is lost. -/
def getLines (delim : UInt8) : Text → List Text
  | [] => []
  | b :: s =>
    if b = delim then [] :: getLines delim s
    else match getLines delim s with
      | [] => [[b]]
      | piece :: pieces => (b :: piece) :: pieces

/-- `stream >> word`: skip white space and take the bytes up to the next white space. `none` when
the stream is at its end. -/
def extract (s : Text) : Option (Text × Text) :=
  match s.dropWhile isSpace with
  | [] => none
  | s => some (s.takeWhile (!isSpace ·), s.dropWhile (!isSpace ·))

/-! ## Numbers -/

/-- The exceptions of the number conversions. -/
inductive Exn
  | invalidArgument
  | outOfRange
  deriving DecidableEq, Repr

/-- The number that decimal digits denote. -/
def digitsValue (ds : Text) : ℕ := ds.foldl (fun n d => 10 * n + (d.toNat - 48)) 0

/-- The sign of a numeral, and what stands behind it. -/
def sign : Text → Bool × Text
  | 45 :: s => (true, s)
  | 43 :: s => (false, s)
  | s => (false, s)

/-- `std::stoll`: leading white space, an optional sign and digits; the rest is ignored. -/
def stoll (s : Text) : Except Exn (BitVec 64) :=
  let (neg, s) := sign (s.dropWhile isSpace)
  let digits := s.takeWhile isDigit
  if digits = [] then .error .invalidArgument
  else
    let n : Int := if neg then -(digitsValue digits : Int) else digitsValue digits
    if n < -2 ^ 63 ∨ 2 ^ 63 ≤ n then .error .outOfRange else .ok (BitVec.ofInt 64 n)

/-- `std::to_string` of a natural number. -/
def ofNat (n : ℕ) : Text := (Nat.toDigits 10 n).map ch

/-- `std::to_string` of an `int64_t`. -/
def ofInt64 (v : BitVec 64) : Text :=
  if v.toInt < 0 then ch '-' :: ofNat v.toInt.natAbs else ofNat v.toInt.natAbs

end Text
