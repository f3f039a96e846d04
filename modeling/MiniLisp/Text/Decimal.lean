namespace MiniLisp.Decimal

/-- An optional minus sign and one or more digits. -/
def render (n : Int) : List Char :=
  match n with
  | .ofNat n => Nat.toDigits 10 n
  | .negSucc n => '-' :: Nat.toDigits 10 (n + 1)

def isDigits (cs : List Char) : Bool :=
  !cs.isEmpty && cs.all Char.isDigit

/-- The integer that the whole text writes, if it writes one. Leading zeros are allowed. -/
def parse? : List Char → Option Int
  | '-' :: cs => if isDigits cs then some (-(Nat.ofDigitChars 10 cs 0 : Int)) else none
  | cs => if isDigits cs then some (Nat.ofDigitChars 10 cs 0 : Int) else none

end MiniLisp.Decimal
