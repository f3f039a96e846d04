import MiniLisp.Scope

namespace MiniLisp

/-- A function made by the program. The scope is the one in which it was made. -/
structure Closure where
  params : List String
  body : Value
  scope : ScopeId

/-- What references in values refer to. Nothing is ever removed from it. -/
structure Heap where
  scopes : Scopes
  cells : Array Value
  closures : Array Closure

namespace Heap

def empty : Heap :=
  ⟨Scopes.empty, #[], #[]⟩

/-- Opens a scope inside `outer`. -/
def enter (outer : Option ScopeId) (bindings : Entries String Value) : Heap → Heap × ScopeId
  | ⟨scopes, cells, closures⟩ =>
    let (scopes, id) := scopes.enter outer bindings
    (⟨scopes, cells, closures⟩, id)

/-- Binds a name in the scope. -/
def bind (scope : ScopeId) (name : String) (value : Value) : Heap → Heap
  | ⟨scopes, cells, closures⟩ => ⟨scopes.set scope name value, cells, closures⟩

/-- What the atom holds. -/
def cell (heap : Heap) (id : CellId) : Value :=
  heap.cells[id.index]?.getD .nil

/-- Makes an atom that holds the value. -/
def newCell (v : Value) : Heap → Heap × CellId
  | ⟨scopes, cells, closures⟩ =>
    let id : CellId := ⟨cells.size⟩
    (⟨scopes, cells.push v, closures⟩, id)

def setCell (id : CellId) (v : Value) : Heap → Heap
  | ⟨scopes, cells, closures⟩ => ⟨scopes, cells.setIfInBounds id.index v, closures⟩

def closure? (heap : Heap) (id : FnId) : Option Closure :=
  heap.closures[id.index]?

/-- Makes a function, different from all functions so far. -/
def newClosure (c : Closure) : Heap → Heap × FnId
  | ⟨scopes, cells, closures⟩ =>
    let id : FnId := ⟨closures.size⟩
    (⟨scopes, cells, closures.push c⟩, id)

end Heap
end MiniLisp
