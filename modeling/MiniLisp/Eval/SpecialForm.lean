import MiniLisp.Eval.Expansion
import MiniLisp.Value.Template

namespace MiniLisp

/-- Each evaluates what it has to, and then has its value or goes on with a form in tail position. -/
inductive SpecialForm where
  | define | defineExpander | letIn | sequence | choice | function
  | quote | quasiquote | expansion | handle
  deriving DecidableEq

/-- What is left to do after a step. -/
inductive Step where
  | done (v : Value)
  /-- Evaluates to what the form evaluates to in the scope. -/
  | tail (form : Value) (scope : ScopeId)

namespace SpecialForm

def name : SpecialForm → String
  | define => "def!"
  | defineExpander => "defmacro!"
  | letIn => "let*"
  | sequence => "do"
  | choice => "if"
  | function => "fn*"
  | quote => "quote"
  | quasiquote => "quasiquote"
  | expansion => "macroexpand"
  | handle => "try*"

def arity : SpecialForm → Arity
  | define | defineExpander | letIn | function => .exactly 2
  | quote | quasiquote | expansion => .exactly 1
  | sequence => .any
  | choice => .between 2 3
  | handle => .between 1 2

def all : List SpecialForm :=
  [define, defineExpander, letIn, sequence, choice, function, quote, quasiquote, expansion, handle]

def ofName? (name : String) : Option SpecialForm :=
  all.find? (·.name == name)

def wrongCount (form : SpecialForm) (args : List Value) : Run Step :=
  (Cause.arity form.name form.arity args.length).raise

/-- A function becomes a new function that takes its arguments unevaluated. -/
def toExpander (v : Value) : Run Value := do
  match v with
  | .fn id _ note =>
    match ← Run.query fun heap => heap.closure? id with
    | some c => return .fn (← Run.allocate fun heap => heap.newClosure c) true note
    | none => return v
  | _ => return v

def runDefine (form : SpecialForm) (ev : Evaluator) (scope : ScopeId) : List Value → Run Step
  | [.sym name, expr] => do
    let v ← ev expr scope
    let v ← if form = defineExpander then toExpander v else pure v
    Run.bind scope name v
    return .done v
  | [v, _] => (Cause.operand form.name "symbol" v.typeName).raise
  | args => form.wrongCount args

theorem runDefine_symbol (form : SpecialForm) (ev : Evaluator) (scope : ScopeId) (name : String)
    (expr : Value) :
    form.runDefine ev scope [.sym name, expr] =
      (ev expr scope >>= (if form = defineExpander then toExpander else pure)) >>= fun v => do
        Run.bind scope name v
        return .done v := by
  rw [runDefine, bind_assoc]
  by_cases h : form = defineExpander
  · simp only [h, if_true]
  · simp only [h, if_false]

/-- Binds each name of a row of names and forms. Later forms see earlier names. -/
def bindAll (ev : Evaluator) (scope : ScopeId) : List Value → Run Unit
  | .sym name :: expr :: more => do
    Run.bind scope name (← ev expr scope)
    bindAll ev scope more
  | _ :: _ :: _ => Cause.bindingName.raise
  | _ => return ()

def runLetIn (ev : Evaluator) (scope : ScopeId) : List Value → Run Step
  | [bindings, body] => do
    match bindings.elements? with
    | none => Cause.bindingForm.raise
    | some row =>
      if row.length % 2 = 1 then Cause.oddBindings.raise
      let inner ← Run.enter (some scope) []
      bindAll ev inner row
      return .tail body inner
  | args => letIn.wrongCount args

theorem runLetIn_pair (ev : Evaluator) (scope : ScopeId) (bindings body : Value) :
    runLetIn ev scope [bindings, body] =
      match bindings.elements? with
      | none => Cause.bindingForm.raise
      | some row =>
        if row.length % 2 = 1 then Cause.oddBindings.raise
        else do
          let inner ← Run.enter (some scope) []
          bindAll ev inner row
          return .tail body inner := by
  rw [runLetIn]
  cases bindings.elements? with
  | none => rfl
  | some row =>
    by_cases h : row.length % 2 = 1
    · simp only [h, if_true]
      rfl
    · simp only [h, if_false]

def runSequence (ev : Evaluator) (scope : ScopeId) : List Value → Run Step
  | [] => return .done .nil
  | [last] => return .tail last scope
  | form :: more => do
    discard (ev form scope)
    runSequence ev scope more

def runChoice (ev : Evaluator) (scope : ScopeId) : List Value → Run Step
  | [condition, yes] => do
    return if (← ev condition scope).isTruthy then .tail yes scope else .done .nil
  | [condition, yes, no] => do
    return if (← ev condition scope).isTruthy then .tail yes scope else .tail no scope
  | args => choice.wrongCount args

/-- The mark for the rest stands at most once, and then in front of the last name. -/
def ValidParams (names : List String) : Prop :=
  names.count restMark = 0 ∨
    names.count restMark = 1 ∧ names.idxOf restMark + 2 = names.length

instance (names : List String) : Decidable (ValidParams names) :=
  inferInstanceAs (Decidable (_ ∨ _))

def symbolName? : Value → Option String
  | .sym name => some name
  | _ => none

/-- The parameters of a function, from a list or vector of symbols. -/
def params? (v : Value) : Option (List String) := do
  let names ← (← v.elements?).mapM symbolName?
  if ValidParams names then some names else none

def runFunction (scope : ScopeId) : List Value → Run Step
  | [params, body] => do
    match params? params with
    | none => Cause.params.raise
    | some names =>
      let id ← Run.allocate fun heap => heap.newClosure ⟨names, body, scope⟩
      return .done (.fn id false .nil)
  | args => function.wrongCount args

/-- The name and the handler of a clause that receives errors. -/
def catchClause? : Value → Option (String × Value)
  | .list [.sym mark, .sym name, handler] _ =>
    if mark = "catch*" then some (name, handler) else none
  | _ => none

def runHandle (ev : Evaluator) (scope : ScopeId) : List Value → Run Step
  | [body] => return .tail body scope
  | [body, clause] => do
    match catchClause? clause with
    | none => Cause.catchClause.raise
    | some (name, handler) =>
      match ← Run.attempt (ev body scope) with
      | .ok v => return .done v
      | .error fault =>
        return .tail handler (← Run.enter (some scope) [(name, fault.toCaught)])
  | args => handle.wrongCount args

/-- Runs a special form. The fuel is that of the expansion. -/
def run (form : SpecialForm) (ev : Evaluator) (fuel : Nat) (scope : ScopeId)
    (args : List Value) : Run Step :=
  match form with
  | define | defineExpander => form.runDefine ev scope args
  | letIn => runLetIn ev scope args
  | sequence => runSequence ev scope args
  | choice => runChoice ev scope args
  | function => runFunction scope args
  | quote =>
    match args with
    | [v] => return .done v
    | _ => quote.wrongCount args
  | quasiquote =>
    match args with
    | [v] => return .tail v.template scope
    | _ => quasiquote.wrongCount args
  | expansion =>
    match args with
    | [v] => do return .done (← expand ev fuel v scope)
    | _ => expansion.wrongCount args
  | handle => runHandle ev scope args

end SpecialForm
end MiniLisp
