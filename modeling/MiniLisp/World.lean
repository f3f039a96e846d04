import MiniLisp.Heap

namespace MiniLisp

/-- What a run reads and changes. -/
structure World where
  heap : Heap
  /-- Standard input that has not been read yet. -/
  input : List Char
  /-- Everything printed so far. -/
  output : String
  files : Files
  /-- What the clock shows, in milliseconds. It stands still during a run. -/
  clock : Int64

def World.start (files : Files) (input : String) (clock : Int64) : World :=
  ⟨Heap.empty, input.toList, "", files, clock⟩

/-- What has been printed, and the world without it. -/
def World.takeOutput (w : World) : String × World :=
  (w.output, { w with output := "" })

/-- A run that does not end within its fuel has no result at all; a run that fails keeps what it has done
to the world. -/
abbrev Run := ExceptT Fault (StateT World Option)

namespace Run

variable {α : Type}

/-- The run that does not end. -/
def diverge : Run α :=
  ExceptT.mk fun _ => none

/-- Runs to the end and hands over a failure as data. -/
def attempt (run : Run α) : Run (Except Fault α) :=
  ExceptT.lift run.run

/-- Lets an error value fail the run. -/
def settle : Value → Run Value
  | .error kind payload => throw ⟨kind, payload⟩
  | v => pure v

/-- Looks something up in the heap. -/
@[inline] def query (f : Heap → α) : Run α :=
  return f (← get).heap

/-- Takes something new from the heap. -/
@[inline] def allocate (f : Heap → Heap × α) : Run α :=
  modifyGet fun
    | ⟨heap, input, output, files, clock⟩ =>
      let (heap, a) := f heap
      (a, ⟨heap, input, output, files, clock⟩)

@[inline] def update (f : Heap → Heap) : Run Unit :=
  modify fun
    | ⟨heap, input, output, files, clock⟩ => ⟨f heap, input, output, files, clock⟩

def print (text : String) : Run Unit :=
  modify fun
    | ⟨heap, input, output, files, clock⟩ => ⟨heap, input, output ++ text, files, clock⟩

/-- Opens a scope inside `outer`. -/
def enter (outer : Option ScopeId) (bindings : Entries String Value) : Run ScopeId :=
  allocate fun heap => heap.enter outer bindings

/-- Binds a name in the scope. -/
def bind (scope : ScopeId) (name : String) (value : Value) : Run Unit :=
  update fun heap => heap.bind scope name value

def resolve (scope : ScopeId) (name : String) : Run Value := do
  ofExcept (← query fun heap => heap.scopes.resolve scope name)

def now : Run Int64 :=
  return (← get).clock

def readFile (path : String) : Run String := do
  match (← get).files.read path with
  | .ok text => return text
  | .error fault => (Cause.file fault).raise

/-- The next line of the input without its end, `none` at the end of the input. -/
def readLine : Run (Option String) :=
  modifyGet fun w =>
    if w.input.isEmpty then (none, w)
    else
      let line := w.input.takeWhile (· != '\n')
      let trimmed := (line.reverse.dropWhile (· == '\r')).reverse
      (some (String.ofList trimmed), { w with input := w.input.drop (line.length + 1) })

end Run
end MiniLisp
