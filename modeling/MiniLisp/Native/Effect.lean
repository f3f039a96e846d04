import MiniLisp.Native.Arguments
import MiniLisp.Value.Print
import MiniLisp.World

namespace MiniLisp.Native

open Run

def printed (style : Value.Style) (sep : String) (args : List Value) : Run String :=
  query fun heap => Value.printAll heap style sep args

def runText (style : Value.Style) (sep : String) (args : List Value) : Run Value :=
  return .str (← printed style sep args)

/-- Prints the arguments on a line of their own. -/
def runPrintLine (style : Value.Style) (args : List Value) : Run Value := do
  print ((← printed style " " args) ++ "\n")
  return .nil

def runSlurp : List Value → Run Value
  | [path] => do return .str (← readFile (← ofExcept (slurp.text path)))
  | args => ofExcept (slurp.wrongCount args)

/-- Prints the prompt and reads a line, `nil` at the end of the input. The input is text, so reading it never
fails. -/
def runReadline : List Value → Run Value
  | [prompt] => do
    print (← query fun heap => prompt.print heap .display)
    match ← readLine with
    | some line => return .str line
    | none => return .nil
  | args => ofExcept (readline.wrongCount args)

def runAtom : List Value → Run Value
  | [v] => return .atom (← allocate fun heap => heap.newCell v) .nil
  | args => ofExcept (atom.wrongCount args)

def runDeref : List Value → Run Value
  | [target] => do
    let id ← ofExcept (deref.cell target)
    query fun heap => heap.cell id
  | args => ofExcept (deref.wrongCount args)

def runReset : List Value → Run Value
  | [target, v] => do
    let id ← ofExcept (reset.cell target)
    update fun heap => heap.setCell id v
    return v
  | args => ofExcept (reset.wrongCount args)

def runTimeMs (_ : List Value) : Run Value :=
  return .int (← now)

end MiniLisp.Native
