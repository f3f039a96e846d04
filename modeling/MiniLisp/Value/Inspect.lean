import MiniLisp.Value.Print
import MiniLisp.Text.Escaped

namespace MiniLisp

/-- A part of the text of a structure. Values may be nested to any depth, so the text is written from a list
of the pieces that are still to come. -/
inductive Piece where
  | text (s : String)
  | value (v : Value)

namespace Piece

/-- A comma and a space stand between two parts. -/
def join (parts : List (List Piece)) : List Piece :=
  (parts.intersperse [text ", "]).flatten

def quoted (s : String) : Piece :=
  text (String.ofList (Escaped.quoted s.toList))

end Piece

def Key.pieces : Key → List Piece
  | .str s => [.text "String(", .quoted s, .text ")"]
  | .kw name => [.text "Keyword(", .quoted (":" ++ name), .text ")"]

/-- The name of the constructor and what it holds. -/
def Value.pieces (heap : Heap) : Value → List Piece
  | nil => [.text "Nil"]
  | bool b => [.text "Bool(", .text (toString b), .text ")"]
  | int n => [.text "Integer(", .text (String.ofList (Decimal.render n.toInt)), .text ")"]
  | str s => [.text "String(", .quoted s, .text ")"]
  | sym name => [.text "Symbol(", .text name, .text ")"]
  | kw name => [.text "Keyword(:", .text name, .text ")"]
  | list items _ => .text "List(" :: Piece.join (items.map fun v => [.value v]) ++ [.text ")"]
  | vec items _ => .text "Vector(" :: Piece.join (items.map fun v => [.value v]) ++ [.text ")"]
  | map entries _ =>
    let entries := entries.map fun (key, v) => key.pieces ++ [.text " => ", .value v]
    .text "HashMap(" :: Piece.join entries ++ [.text ")"]
  | native op _ => [.text "Builtin(", .text op.name, .text ")"]
  | fn id expander _ =>
    match heap.closure? id with
    | none => [.text "Closure()"]
    | some c =>
      .text "Closure(params=[" :: Piece.join (c.params.map fun p => [.quoted p]) ++
        [.text "], body=", .value c.body, .text ", is_macro=", .text (toString expander), .text ")"]
  | atom cell _ => [.text "Atom(", .value (heap.cell cell), .text ")"]
  | error kind payload => [.text "Error(", .text kind.tag, .text ", ", .value payload, .text ")"]
  | caught kind payload =>
    [.text "CaughtError(", .text kind.tag, .text ", ", .value payload, .text ")"]

/-- How many pieces are written; an atom that holds itself has no last one. -/
def maxPieces : Nat := 16777216

/-- Writes at most `count` pieces. -/
def Piece.write (heap : Heap) : Nat → List Piece → String → String
  | _, [], written => written
  | 0, _, written => written ++ String.ofList Value.elision
  | count + 1, .text s :: rest, written => write heap count rest (written ++ s)
  | count + 1, .value v :: rest, written => write heap count (v.pieces heap ++ rest) written

/-- The structure of a value. -/
def Value.inspect (heap : Heap) (v : Value) : String :=
  Piece.write heap maxPieces [.value v] ""

/-- The structure of a scope: the names that it binds itself, and whether it is inside another. -/
def Scopes.inspect (scopes : Scopes) (id : ScopeId) : String :=
  let names := ((scopes.get? id).map fun s => s.bindings.map (·.1)).getD []
  let hasOuter := ((scopes.get? id).bind (·.outer)).isSome
  let shown := names.map fun name => String.ofList (Escaped.quoted name.toList)
  "Environment \x7b names: [" ++ ", ".intercalate shown ++ "], has_outer: " ++
    toString hasOuter ++ " \x7d"

end MiniLisp
