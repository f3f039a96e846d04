import MiniLisp.Text.Separator

namespace MiniLisp

inductive Bracket where
  | round | square | curly
  deriving DecidableEq

namespace Bracket

def opening : Bracket → Char
  | round => '('
  | square => '['
  | curly => '\x7b'

def closing : Bracket → Char
  | round => ')'
  | square => ']'
  | curly => '\x7d'

end Bracket

/-- What stands in front of a form and abbreviates a list around it. -/
inductive Mark where
  | quote | quasiquote | unquote | spliceUnquote | deref | withMeta
  deriving DecidableEq

namespace Mark

def text : Mark → List Char
  | quote => ['\x27']
  | quasiquote => ['\x60']
  | unquote => ['~']
  | spliceUnquote => ['~', '@']
  | deref => ['@']
  | withMeta => ['^']

/-- The symbol at the head of the list. -/
def symbol : Mark → String
  | quote => "quote"
  | quasiquote => "quasiquote"
  | unquote => "unquote"
  | spliceUnquote => "splice-unquote"
  | deref => "deref"
  | withMeta => "with-meta"

end Mark

inductive Token where
  | opening (b : Bracket)
  | closing (b : Bracket)
  | mark (m : Mark)
  /-- A string literal without its opening double quote. The closing one may be missing. -/
  | string (body : List Char)
  | word (cs : List Char)
  deriving DecidableEq

/-- A text is a row of separators and lexemes, and its tokens in order are what the reader sees. -/
inductive Lexeme where
  | comment (body : List Char)
  | token (t : Token)
  deriving DecidableEq

/-- Characters that end a word, besides separators. -/
def delimiters : List Char :=
  ['[', ']', '\x7b', '\x7d', '(', ')', '\x27', '\x22', '\x60', ',', ';']

def isWordChar (c : Char) : Bool :=
  !isSeparator c && !delimiters.contains c

namespace Token

def text : Token → List Char
  | opening b => [b.opening]
  | closing b => [b.closing]
  | mark m => m.text
  | string body => '\x22' :: body
  | word cs => cs

end Token

namespace Lexeme

def text : Lexeme → List Char
  | comment body => ';' :: body
  | token t => t.text

def token? : Lexeme → Option Token
  | comment _ => none
  | token t => some t

/-- Splits what follows an opening double quote after the closing one. A backslash takes the next
character with it. -/
def splitString : List Char → List Char × List Char
  | [] => ([], [])
  | '\\' :: c :: cs =>
    let split := splitString cs
    ('\\' :: c :: split.1, split.2)
  | c :: cs =>
    if c = '\x22' then ([c], cs)
    else
      let split := splitString cs
      (c :: split.1, split.2)

/-- The lexeme that starts with `c`, which is no separator, and what is left of `cs` after it. -/
def next (c : Char) (cs : List Char) : Lexeme × List Char :=
  match c with
  | ';' => (comment (cs.takeWhile (· != '\n')), cs.dropWhile (· != '\n'))
  | '(' => (token (.opening .round), cs)
  | '[' => (token (.opening .square), cs)
  | '\x7b' => (token (.opening .curly), cs)
  | ')' => (token (.closing .round), cs)
  | ']' => (token (.closing .square), cs)
  | '\x7d' => (token (.closing .curly), cs)
  | '\x27' => (token (.mark .quote), cs)
  | '\x60' => (token (.mark .quasiquote), cs)
  | '@' => (token (.mark .deref), cs)
  | '^' => (token (.mark .withMeta), cs)
  | '~' =>
    match cs with
    | '@' :: rest => (token (.mark .spliceUnquote), rest)
    | _ => (token (.mark .unquote), cs)
  | '\x22' =>
    let split := splitString cs
    (token (.string split.1), split.2)
  | c => (token (.word (c :: cs.takeWhile isWordChar)), cs.dropWhile isWordChar)

theorem splitString_append (cs : List Char) : (splitString cs).1 ++ (splitString cs).2 = cs := by
  fun_induction splitString cs with
  | case1 => rfl
  | case2 c cs split ih => simpa [split] using ih
  | case3 cs => rfl
  | case4 c cs _ _ split ih => simpa [split] using ih

/-- Nothing is lost between a lexeme and the rest. -/
theorem next_append (c : Char) (cs : List Char) :
    (next c cs).1.text ++ (next c cs).2 = c :: cs := by
  unfold next
  split <;> try rfl
  · simp [text]
  · split <;> rfl
  · simp [text, Token.text, splitString_append]
  · simp [text, Token.text]

theorem next_length (c : Char) (cs : List Char) : (next c cs).2.length ≤ cs.length := by
  have h : 0 < (next c cs).1.text.length := by
    unfold next
    split <;> try exact Nat.zero_lt_succ _
    split <;> exact Nat.zero_lt_succ _
  have := congrArg List.length (next_append c cs)
  simp at this
  omega

theorem next_shorter {cs rest : List Char} {c : Char}
    (h : cs.dropWhile isSeparator = c :: rest) : (next c rest).2.length < cs.length := by
  have hn := next_length c rest
  have hd := (List.dropWhile_suffix isSeparator (l := cs)).length_le
  rw [h] at hd
  exact Nat.lt_of_le_of_lt hn hd

/-- The lexemes of a text in order, without the separators between them. -/
def scan (cs : List Char) : List Lexeme :=
  match h : cs.dropWhile isSeparator with
  | [] => []
  | c :: rest =>
    have := next_shorter h
    (next c rest).1 :: scan (next c rest).2
termination_by cs.length

end Lexeme

namespace Token

def scan (cs : List Char) : List Token :=
  (Lexeme.scan cs).filterMap Lexeme.token?

end Token

/-- The texts of the tokens in order. -/
def tokenize (source : String) : List String :=
  (Token.scan source.toList).map fun t => String.ofList t.text

end MiniLisp
