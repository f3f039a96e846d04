import MiniLisp.Text.Unprintable

namespace MiniLisp.Escaped

def char (c : Char) : List Char :=
  match c with
  | '\x00' => ['\\', '0']
  | '\t' => ['\\', 't']
  | '\r' => ['\\', 'r']
  | '\n' => ['\\', 'n']
  | '\\' => ['\\', '\\']
  | '\x22' => ['\\', '\x22']
  | c =>
    if isPrintable c then [c]
    else '\\' :: 'u' :: '\x7b' :: Nat.toDigits 16 c.toNat ++ ['\x7d']

/-- A text in quotes for inspection. Unlike a literal it is not meant to be read back: what shows nothing of
its own is written by its code point. -/
def quoted (cs : List Char) : List Char :=
  '\x22' :: cs.flatMap char ++ ['\x22']

end MiniLisp.Escaped
