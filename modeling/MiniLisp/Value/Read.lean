import MiniLisp.Token
import MiniLisp.Integer
import MiniLisp.Text.Quoted
import MiniLisp.Text.Decimal
import MiniLisp.Value.HashMap

namespace MiniLisp.Value

/-- Something begun and not ended yet. The reader keeps a stack of what it is in the middle of, whose height
is the nesting depth of the next form. -/
inductive Pending where
  /-- An open bracket and the elements since, the last one first. -/
  | seq (b : Bracket) (items : List Value)
  | mark (m : Mark)
  /-- The mark for metadata and the metadata; the value to carry it comes next. -/
  | target (note : Value)

inductive Reading where
  | more (stack : List Pending)
  | done (v : Value)

/-- Hands a form that has ended to what it stands in. -/
def complete (v : Value) : List Pending → Reading
  | [] => .done v
  | .seq b items :: outer => .more (.seq b (v :: items) :: outer)
  | .mark .withMeta :: outer => .more (.target v :: outer)
  | .mark m :: outer => complete (ofList [sym m.symbol, v]) outer
  | .target note :: outer => complete (ofList [sym Mark.withMeta.symbol, v, note]) outer

/-- The value of a word: an integer, a keyword, a constant or a symbol. -/
def ofWord (cs : List Char) : Except Fault Value :=
  match Decimal.parse? cs with
  | some n =>
    match integer? n with
    | some k => .ok (int k)
    | none => (Cause.integerRange (String.ofList cs)).raise
  | none =>
    match cs with
    | ':' :: name => .ok (kw (String.ofList name))
    | ['n', 'i', 'l'] => .ok nil
    | ['t', 'r', 'u', 'e'] => .ok (bool true)
    | ['f', 'a', 'l', 's', 'e'] => .ok (bool false)
    | _ => .ok (sym (String.ofList cs))

/-- The value of a bracketed row of elements. -/
def ofBracket (b : Bracket) (items : List Value) : Except Fault Value :=
  match b with
  | .round => .ok (ofList items)
  | .square => .ok (ofVec items)
  | .curly => (insertPairs [] items).map ofEntries

/-- Takes the first token of a form. -/
def start (stack : List Pending) (t : Token) : Except Fault Reading :=
  if maxFormDepth ≤ stack.length then Cause.nesting.raise
  else
    match t with
    | .opening b => .ok (.more (.seq b [] :: stack))
    | .closing b => (Cause.strayCloser (String.ofList [b.closing])).raise
    | .mark m => .ok (.more (.mark m :: stack))
    | .string body =>
      match Quoted.decode body with
      | some cs => .ok (complete (str (String.ofList cs)) stack)
      | none => Cause.openString.raise
    | .word cs => (ofWord cs).map (complete · stack)

/-- Takes a token: the closer of the innermost bracket, or the first token of a form. -/
def feed (stack : List Pending) (t : Token) : Except Fault Reading :=
  match stack, t with
  | .seq b items :: outer, .closing b' =>
    if b = b' then (ofBracket b items.reverse).map (complete · outer) else start stack t
  | _, _ => start stack t

/-- Why the input must not end here. -/
def cutOff : List Pending → Cause
  | .seq .. :: _ => .unclosed
  | stack => if maxFormDepth ≤ stack.length then .nesting else .endOfInput

/-- Reads on to the end of the outermost form, and keeps the tokens after it. -/
def readOn (stack : List Pending) : List Token → Except Fault (Value × List Token)
  | [] => (cutOff stack).raise
  | t :: ts =>
    match feed stack t with
    | .error f => .error f
    | .ok (.more stack) => readOn stack ts
    | .ok (.done v) => .ok (v, ts)

/-- The first form of the tokens, `none` if there are no tokens. -/
def ofTokens : List Token → Except Fault (Option Value)
  | [] => .ok none
  | ts => (readOn [] ts).map fun (v, _) => some v

/-- The first form of the text, `none` if there is none. -/
def read (source : String) : Except Fault (Option Value) :=
  ofTokens (Token.scan source.toList)

end MiniLisp.Value
