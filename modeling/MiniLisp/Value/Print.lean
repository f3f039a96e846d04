import MiniLisp.Heap
import MiniLisp.Text.Quoted
import MiniLisp.Text.Decimal

namespace MiniLisp.Value

/-- A readable text has its strings as literals, a display text has them as they are. -/
inductive Style where
  | readable | display
  deriving DecidableEq

/-- Stands for what lies too deep to be printed. -/
def elision : List Char :=
  ['.', '.', '.']

/-- The text of a value that holds no other value, and of the head of an error. -/
def scalarText (style : Style) : Value → List Char
  | nil => "nil".toList
  | bool true => "true".toList
  | bool false => "false".toList
  | int n => Decimal.render n.toInt
  | str s =>
    match style with
    | .readable => Quoted.literal s.toList
    | .display => s.toList
  | sym name => name.toList
  | kw name => ':' :: name.toList
  | native op _ => "#<builtin:".toList ++ op.name.toList ++ ['>']
  | fn _ true _ => "#<macro>".toList
  | fn _ false _ => "#<function>".toList
  | list .. | vec .. | map .. | atom .. => elision
  | error kind _ => kind.tag.toList ++ [':', ' ']
  | caught .. => []

/-- Puts one separator between each two texts. -/
def joinTexts (sep : List Char) (texts : List (List Char)) : List Char :=
  (texts.intersperse sep).flatten

/-- The text of a value at the depth where nothing nested is printed any more. -/
def elidedText (style : Style) : Value → List Char
  | error kind payload => scalarText style (error kind payload) ++ elidedText .display payload
  | caught _ payload => elidedText .display payload
  | v => scalarText style v

/-- The text of a value of which `levels` levels are printed. An error prints its payload for
display, and a caught error prints as what was thrown. -/
def text (heap : Heap) (style : Style) : Nat → Value → List Char
  | 0, v => elidedText style v
  | levels + 1, v =>
    match v with
    | list items _ =>
      '(' :: joinTexts [' '] (items.map (text heap style levels)) ++ [')']
    | vec items _ =>
      '[' :: joinTexts [' '] (items.map (text heap style levels)) ++ [']']
    | map entries _ =>
      let entryText := fun (key, value) =>
        scalarText style (Key.toValue key) ++ ' ' :: text heap style levels value
      '\x7b' :: joinTexts [' '] (entries.map entryText) ++ ['\x7d']
    | atom cell _ => "(atom ".toList ++ text heap style levels (heap.cell cell) ++ [')']
    | error kind payload =>
      scalarText style (error kind payload) ++ text heap .display levels payload
    | caught _ payload => text heap .display levels payload
    | v => scalarText style v

/-- The value as text. What lies deeper than the reader accepts is left out. -/
def print (heap : Heap) (style : Style) (v : Value) : String :=
  String.ofList (text heap style maxFormDepth v)

/-- The values as text, one separator between each two. -/
def printAll (heap : Heap) (style : Style) (sep : String) (values : List Value) : String :=
  String.ofList (joinTexts sep.toList (values.map (text heap style maxFormDepth)))

end MiniLisp.Value

/-- The failure as one text: its kind and its payload for display. -/
def MiniLisp.Fault.describe (heap : MiniLisp.Heap) (f : MiniLisp.Fault) : String :=
  f.kind.tag ++ ": " ++ f.payload.print heap .display
