import MiniLisp.Fault

namespace MiniLisp.Value

def quoted (v : Value) : Value :=
  ofList [sym "quote", v]

/-- The elements after the marker of a part that is to be spliced in. -/
def spliced? (part : Value) : Option (List Value) :=
  match part.elements? with
  | some (marker :: forms) => if marker.isSymbol "splice-unquote" then some forms else none
  | _ => none

/-- What a misused marker becomes: evaluating it fails. -/
def wrongMarker (name : String) (forms : List Value) : Value :=
  (Cause.arity name (.exactly 1) forms.length).fault.toValue

mutual

/-- The form whose value is the template with its unquoted parts filled in. A list and a vector both
become a list. -/
def template : Value → Value
  | list items note => if items.isEmpty then quoted (list items note) else templateItems items
  | vec items note => if items.isEmpty then quoted (vec items note) else templateItems items
  | v => quoted v

/-- The form that fills in a row of parts. -/
def templateItems : List Value → Value
  | [] => quoted (ofList [])
  | part :: parts =>
    if part.isSymbol "unquote" then
      match parts with
      | [form] => form
      | _ => wrongMarker "unquote" parts
    else
      match spliced? part with
      | some [form] => ofList [sym "concat", form, templateItems parts]
      | some forms => wrongMarker "splice-unquote" forms
      | none => ofList [sym "cons", template part, templateItems parts]

end

end MiniLisp.Value
