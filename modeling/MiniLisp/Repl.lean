import MiniLisp.Session
import MiniLisp.Text.Backspace

namespace MiniLisp.Repl

open Session

/-- What a run of the command line leaves behind. -/
structure Outcome where
  output : String
  errors : String
  code : Nat

def printLine (text : String) : Run Unit :=
  Run.print (text ++ "\n")

def helpLines : List String :=
  ["Commands:",
   "  :help      - Show this help message",
   "  :env       - Show current environment bindings",
   "  :quit      - Exit the interpreter",
   "  :exit      - Exit the interpreter",
   "  Ctrl+D     - Exit the interpreter",
   "",
   "Special forms:",
   "  def! defmacro! let* do if fn* quote quasiquote macroexpand try*/catch*",
   "",
   "Examples:",
   "  (+ 1 2 3)",
   "  (def! fib (fn* (n) (if (< n 2) n (+ (fib (- n 1)) (fib (- n 2))))))",
   "  (let* (xs [1 2 3]) `(0 ~@xs))",
   "  (try* (throw \x7b:code 7\x7d) (catch* e (str \"caught: \" e)))",
   "  (load-file \"script.mal\")",
   ""]

/-- Names in columns of 15 characters, four to a line. -/
def nameRows (names : List String) : List String :=
  match names with
  | [] => []
  | name :: more =>
    let padded := fun (s : String) => "  " ++ s ++ String.ofList (List.replicate (15 - s.length) ' ')
    String.join ((name :: more.take 3).map padded) :: nameRows (more.drop 3)
termination_by names.length
decreasing_by simp only [List.length_drop, List.length_cons]; omega

def isNative : Value → Bool
  | .native .. => true
  | _ => false

/-- The listing of all bindings that can be seen from a scope. -/
def bindingLines (heap : Heap) (scope : ScopeId) : List String :=
  let bindings := heap.scopes.visible scope
  let natives := (bindings.filter fun (_, v) => isNative v).map (·.1)
  let others := bindings.filter fun (_, v) => !isNative v
  if bindings.isEmpty then ["Environment is empty."]
  else
    [s!"Environment bindings ({bindings.length} total):", ""] ++
    (if natives.isEmpty then []
      else [s!"Built-in functions ({natives.length}):"] ++ nameRows natives ++ [""]) ++
    (if others.isEmpty then []
      else s!"User-defined values ({others.length}):" ::
        others.map fun (name, v) => s!"  {name} = {v.print heap .readable}")

/-- Answers one line; the result tells whether the loop goes on. -/
def answer (fuel : Nat) (scope : ScopeId) (line : String) : Run Bool := do
  match line with
  | "" => return true
  | ":help" =>
    helpLines.forM printLine
    return true
  | ":env" =>
    (← Run.query fun heap => bindingLines heap scope).forM printLine
    return true
  | ":quit" | ":exit" => return false
  | _ =>
    match ← rep fuel line scope with
    | some text => printLine text
    | none => pure ()
    return true

/-- Answers line after line, each as `edit` leaves it. Each line takes at least one character of the
input, so the number of characters bounds the number of lines. -/
def loop (edit : List Char → List Char) (fuel : Nat) (scope : ScopeId) : Nat → Run Unit
  | 0 => printLine "Goodbye!"
  | lines + 1 => do
    match ← Run.readLine with
    | none => printLine "Goodbye!"
    | some line =>
      if ← answer fuel scope (String.ofList (trimBlank (edit line.toList))) then
        loop edit fuel scope lines
      else printLine "Goodbye!"

def interact (edit : List Char → List Char) (fuel : Nat) : Run Unit := do
  let scope ← newGlobal fuel
  discard (rep fuel "(println (str \"Mal [\" *host-language* \"]\"))" scope)
  printLine "Type :help for more commands, or Ctrl+D to exit."
  printLine ""
  loop edit fuel scope (← get).input.length

/-- Loads the script. The result is what went wrong, if anything did. -/
def runScript (fuel : Nat) (script : String) (args : List String) : Run (Option String) := do
  let scope ← newGlobal fuel
  Run.bind scope "*ARGV*" (.ofList (args.map .str))
  let name ← Run.query fun heap => (Value.str script).print heap .readable
  match ← rep fuel ("(load-file " ++ name ++ ")") scope with
  | some "nil" => return none
  | text? => return text?

/-- Runs the command line with these arguments from this world. Lines are typed with backspaces. -/
def run (fuel : Nat) (args : List String) (world : World) : Option Outcome := do
  match args with
  | [] =>
    let (_, world) ← (interact Backspace.apply fuel).run.run world
    return ⟨world.output, "", 0⟩
  | script :: args =>
    let (result, world) ← (runScript fuel script args).run.run world
    match result with
    | .ok (some text) => return ⟨world.output, text ++ "\n", 1⟩
    | _ => return ⟨world.output, "", 0⟩

end MiniLisp.Repl
