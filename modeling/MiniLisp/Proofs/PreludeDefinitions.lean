import MiniLisp.Proofs.Definitions
import MiniLisp.Proofs.Endings
import MiniLisp.Proofs.Parameters
import MiniLisp.Proofs.SessionScopes
import MiniLisp.Proofs.StandardNames
import Mathlib.Data.List.Forall2

namespace MiniLisp

open Value Run

/-- The definition of a function, or of an expander. -/
structure Definition where
  expander : Bool
  name : String
  params : List String
  body : Value

namespace Definition

/-- The form that makes the definition. -/
def form (d : Definition) : Value :=
  ofList [.sym (if d.expander then "defmacro!" else "def!"), .sym d.name,
    ofList [.sym "fn*", ofList (d.params.map .sym), d.body]]

/-- What is defined, in the scope of the definition. -/
def closure (d : Definition) (scope : ScopeId) : Closure :=
  ⟨d.params, d.body, scope⟩

/-- The definition leaves the standard names alone, and those with which definitions are made. -/
structure Proper (d : Definition) : Prop where
  params : SpecialForm.ValidParams d.params
  name : d.name ∉ reservedNames
  standard : d.name ∉ standardNames

instance (d : Definition) : Decidable d.Proper :=
  decidable_of_iff
    (SpecialForm.ValidParams d.params ∧ d.name ∉ reservedNames ∧ d.name ∉ standardNames)
    ⟨fun ⟨hp, hn, hs⟩ => ⟨hp, hn, hs⟩, fun h => ⟨h.params, h.name, h.standard⟩⟩

/-- `not`: `(if a false true)`. -/
def negation : Definition :=
  ⟨false, "not", ["a"], ofList [.sym "if", .sym "a", .bool false, .bool true]⟩

def loadFile : Definition :=
  ⟨false, "load-file", ["f"], ofList [.sym "eval", ofList [.sym "read-string",
    ofList [.sym "str", .str "(do ", ofList [.sym "slurp", .sym "f"], .str "\nnil)"]]]⟩

/-- Adds one to what the counter holds. -/
def increment : Value :=
  ofList [.sym "fn*", .ofVec [.sym "x"], ofList [.sym "+", .int 1, .sym "x"]]

def gensym : Definition :=
  ⟨false, "gensym", [], ofList [.sym "symbol", ofList [.sym "str", .str "G__",
    ofList [.sym "swap!", .sym "*gensym-counter*", increment]]]⟩

/-- Whether there are more forms than so many. -/
def moreThan (n : Int64) : Value :=
  ofList [.sym ">", ofList [.sym "count", .sym "xs"], .int n]

/-- The choice between the first form and the others. -/
def cond : Definition :=
  ⟨true, "cond", ["&", "xs"], ofList [.sym "if", moreThan 0, ofList [.sym "list",
    ofList [.sym "quote", .sym "if"], ofList [.sym "first", .sym "xs"],
    ofList [.sym "if", moreThan 1, ofList [.sym "nth", .sym "xs", .int 1],
      ofList [.sym "throw", .str "odd number of forms to cond"]],
    ofList [.sym "cons", ofList [.sym "quote", .sym "cond"],
      ofList [.sym "rest", ofList [.sym "rest", .sym "xs"]]]]]⟩

/-- The part of a template that is filled in. -/
def unquote (v : Value) : Value :=
  ofList [.sym "unquote", v]

def splice (v : Value) : Value :=
  ofList [.sym "splice-unquote", v]

/-- The expander calls itself in what it makes of all forms but the first. -/
def again (name rest : String) : Value :=
  ofList [.sym name, splice (ofList [.sym "rest", .sym rest])]

/-- What holds the value of the first form in a generated name and then chooses between the name and the
rest of the forms. -/
def holding (yes no : Value) : Value :=
  ofList [.sym "let*", ofList [unquote (.sym "condvar"), unquote (ofList [.sym "first", .sym "xs"])],
    ofList [.sym "if", unquote (.sym "condvar"), yes, no]]

/-- An expander that makes that of two forms and more. -/
def connective (name : String) (neutral yes no : Value) : Definition :=
  ⟨true, name, ["&", "xs"], ofList [.sym "if", ofList [.sym "empty?", .sym "xs"], neutral,
    ofList [.sym "if", ofList [.sym "=", .int 1, ofList [.sym "count", .sym "xs"]],
      ofList [.sym "first", .sym "xs"],
      ofList [.sym "let*", ofList [.sym "condvar", ofList [.sym "gensym"]],
        ofList [.sym "quasiquote", holding yes no]]]]⟩

def disjunction : Definition :=
  connective "or" .nil (unquote (.sym "condvar")) (again "or" "xs")

def conjunction : Definition :=
  connective "and" (.bool true) (again "and" "xs") (unquote (.sym "condvar"))

def conditional : Definition :=
  ⟨true, "when", ["test", "&", "body"], ofList [.sym "quasiquote", ofList [.sym "if",
    unquote (.sym "test"), ofList [.sym "do", splice (.sym "body")]]]⟩

/-- An expander that puts what has been reached into the first form, and goes on with the others. -/
def threading (name : String) (into : Value) : Definition :=
  ⟨true, name, ["x", "&", "forms"], ofList [.sym "if", ofList [.sym "empty?", .sym "forms"], .sym "x",
    ofList [.sym "let*", ofList [.sym "form", ofList [.sym "first", .sym "forms"],
        .sym "threaded", ofList [.sym "if", ofList [.sym "list?", .sym "form"],
          ofList [.sym "quasiquote", into], ofList [.sym "list", .sym "form", .sym "x"]]],
      ofList [.sym "quasiquote", ofList [.sym name, unquote (.sym "threaded"),
        splice (ofList [.sym "rest", .sym "forms"])]]]]⟩

def threadFirst : Definition :=
  threading "->" (ofList [unquote (ofList [.sym "first", .sym "form"]), unquote (.sym "x"),
    splice (ofList [.sym "rest", .sym "form"])])

def threadLast : Definition :=
  threading "->>" (ofList [splice (.sym "form"), unquote (.sym "x")])

/-- What the prelude defines before the counter of generated names. -/
def early : List Definition :=
  [negation, loadFile]

/-- What it defines after that. -/
def late : List Definition :=
  [gensym, cond, disjunction, conjunction, conditional, threadFirst, threadLast]

theorem proper_early : ∀ d ∈ early, d.Proper := by
  decide +kernel

theorem proper_late : ∀ d ∈ late, d.Proper := by
  decide +kernel

end Definition

namespace Prelude

/-- The text is the definition. -/
def Reads (source : String) (d : Definition) : Prop :=
  Value.read source = .ok (some d.form)

theorem Reads.clean {source : String} {d : Definition} (h : Reads source d) : d.body.Clean := by
  have hform := clean_of_read h
  simp only [Definition.form, ofList, clean_list, List.forall_mem_cons] at hform
  exact hform.1.2.2.1.1.2.2.1

set_option maxRecDepth 8000 in
theorem reads_early : List.Forall₂ Reads [negation, loadFile] Definition.early := by
  refine .cons ?_ (.cons ?_ .nil)
  all_goals
    refine read_of_tokens rfl ?_
    with_unfolding_all rfl

set_option maxRecDepth 8000 in
theorem reads_late : List.Forall₂ Reads
    [gensym, cond, disjunction, conjunction, conditional, threadFirst, threadLast]
    Definition.late := by
  refine .cons ?_ (.cons ?_ (.cons ?_ (.cons ?_ (.cons ?_ (.cons ?_ (.cons ?_ .nil))))))
  all_goals
    refine read_of_tokens rfl ?_
    with_unfolding_all rfl

end Prelude

/-- What a definition leaves behind. An expander is a second function like the one that it is made
from. -/
def World.defining (w : World) (scope : ScopeId) (d : Definition) : World :=
  let made := w.heap.newClosure (d.closure scope)
  if d.expander then
    let copied := made.1.newClosure (d.closure scope)
    { w with heap := copied.1.bind scope d.name (.fn copied.2 true .nil) }
  else { w with heap := made.1.bind scope d.name (.fn made.2 false .nil) }

/-- What the definition of the counter leaves behind. -/
def World.counting (w : World) (scope : ScopeId) : World :=
  let made := w.heap.newCell (.int 0)
  { w with heap := made.1.bind scope "*gensym-counter*" (.atom made.2 .nil) }

/-- The name stands for what was defined. -/
def Heap.Defines (heap : Heap) (scope : ScopeId) (d : Definition) : Prop :=
  ∃ id, heap.scopes.lookup scope d.name = some (.fn id d.expander .nil) ∧
    heap.closure? id = some (d.closure scope)

/-- The natives have their names, and those of the prelude stand for what it defines. -/
structure Heap.Unrebound (heap : Heap) (scope : ScopeId) : Prop where
  native : ∀ op : Native, heap.scopes.lookup scope op.name = some (.native op .nil)
  defines : ∀ d ∈ Definition.early ++ Definition.late, heap.Defines scope d

/-- A new global scope: the natives and special forms have their names, all that the prelude defines is
there, and the counter of generated names stands at zero. -/
structure Heap.HasPrelude (heap : Heap) (scope : ScopeId) : Prop where
  standard : heap.Standard scope
  hangsOff : heap.HangsOff scope
  global : heap.Global scope
  defines : ∀ d ∈ Definition.early ++ Definition.late, heap.Defines scope d
  counter : heap.scopes.lookup scope "*gensym-counter*" = some (.atom ⟨0⟩ .nil)
  counted : heap.cell ⟨0⟩ = .int 0

section Worlds

variable {heap heap' : Heap} {w : World} {scope : ScopeId} {d : Definition} {names : List String}

theorem Heap.Global.lookup_bind (h : heap.Global scope) (name : String) (v : Value) :
    (heap.bind scope name v).scopes.lookup scope name = some v := by
  obtain ⟨s, hs, ho, -⟩ := h.frame
  have hs' : (heap.bind scope name v).scopes.get? scope =
      some { s with bindings := Entries.insert name v s.bindings } := by
    rw [Heap.get?_bind, if_pos rfl, hs]
    rfl
  rw [Scopes.lookup_outermost hs' ho, Entries.find?_insert_self]

theorem Heap.Defines.retained (h : heap.Defines scope d) (hk : heap.Retains scope names heap')
    (hn : d.name ∈ names) : heap'.Defines scope d := by
  obtain ⟨id, hname, hclosure⟩ := h
  exact ⟨id, (hk.names _ hn).trans hname, hk.closures _ _ hclosure⟩

theorem Heap.Defines.expander? (h : heap.Defines scope d) (hd : d.expander = true)
    (args : List Value) :
    heap.expander? (ofList (.sym d.name :: args)) scope = some (d.closure scope, args) := by
  obtain ⟨id, hname, hclosure⟩ := h
  rw [hd] at hname
  exact expander?_of_closure hname hclosure args

theorem Heap.Defines.entered (h : w.heap.Defines scope d) (outer : Option ScopeId)
    (bindings : Entries String Value) : (w.entered outer bindings).heap.Defines scope d := by
  obtain ⟨id, hname, hclosure⟩ := h
  exact ⟨id, (World.lookup_entered (knows_of_lookup hname) _ _ _).trans hname, hclosure⟩

/-- What holds in the world that a definition leaves. -/
structure World.Defined (w w' : World) (scope : ScopeId) (d : Definition) (names : List String) :
    Prop where
  global : d.name ∉ reservedNames → w'.heap.Global scope
  defines : w'.heap.Defines scope d
  retains : w.heap.Retains scope names w'.heap
  cells : w'.heap.cells = w.heap.cells

theorem World.defined (hw : w.heap.Global scope) (hc : d.body.Clean) (hn : d.name ∉ names) :
    w.Defined (w.defining scope d) scope d names := by
  have hmade := hw.newClosure (c := d.closure scope) hc
  unfold defining
  cases he : d.expander with
  | true =>
    have hcopied := hmade.newClosure (c := d.closure scope) hc
    refine ⟨fun hd => hcopied.bind hd (.fn .nil), ⟨_, ?_, Array.getElem?_push_size⟩, ?_, rfl⟩
    · rw [he]
      exact hcopied.lookup_bind _ _
    · exact (Heap.Retains.newClosure _).trans ((Heap.Retains.newClosure _).trans (.bind hcopied hn _))
  | false =>
    refine ⟨fun hd => hmade.bind hd (.fn .nil), ⟨_, ?_, Array.getElem?_push_size⟩, ?_, rfl⟩
    · rw [he]
      exact hmade.lookup_bind _ _
    · exact (Heap.Retains.newClosure _).trans (.bind hmade hn _)

theorem Heap.HasPrelude.unrebound (h : heap.HasPrelude scope) : heap.Unrebound scope :=
  ⟨h.standard.native, h.defines⟩

/-- Special forms that nothing is bound to mean what they say as well. -/
theorem Heap.Unrebound.means (h : heap.Unrebound scope) (natives : List Native)
    (forms : List SpecialForm)
    (hforms : ∀ form ∈ forms, heap.scopes.lookup scope form.name = none) :
    heap.Means scope natives forms where
  known := Heap.knows_of_lookup (h.native .add)
  native op _ := ⟨_, h.native op⟩
  form form hform id note := by simp [hforms form hform]

/-- The names that only a program of its own binds again. -/
def givenNames : List String :=
  Native.all.map Native.name ++ (Definition.early ++ Definition.late).map Definition.name

theorem Heap.Unrebound.retained (h : heap.Unrebound scope)
    (hk : heap.Retains scope givenNames heap') : heap'.Unrebound scope where
  native op := by
    have hop : op.name ∈ givenNames :=
      List.mem_append_left _ (List.mem_map_of_mem (Native.mem_all op))
    exact (hk.names _ hop).trans (h.native op)
  defines d hd := (h.defines d hd).retained hk (List.mem_append_right _ (List.mem_map_of_mem hd))

/-- The world in which an expander with these forms, made in the scope, has its body evaluated: there is
one more scope. -/
def World.openedFor (w : World) (scope : ScopeId) (forms : List Value) : World :=
  w.entered (some scope) [("xs", ofList forms)]

/-- The scope in which that body is evaluated. -/
def World.scopeFor (w : World) (scope : ScopeId) (forms : List Value) : ScopeId :=
  w.newScope (some scope) [("xs", ofList forms)]

theorem World.lookup_forms (hk : w.heap.Knows scope) (forms : List Value) :
    (w.openedFor scope forms).heap.scopes.lookup (w.scopeFor scope forms) "xs" =
      some (ofList forms) := by
  rw [openedFor, scopeFor, lookup_newScope hk]
  rfl

theorem World.lookup_beside_forms (hk : w.heap.Knows scope) (forms : List Value) {name : String}
    (hn : name ≠ "xs") :
    (w.openedFor scope forms).heap.scopes.lookup (w.scopeFor scope forms) name =
      w.heap.scopes.lookup scope name := by
  have hfree : Entries.find? name [("xs", ofList forms)] = none := by simp [Entries.find?, hn.symm]
  rw [openedFor, scopeFor, lookup_newScope hk, hfree, Option.none_or]

/-- The parameter of such an expander hides none of the standard names. -/
theorem Heap.Means.scopeFor {natives : List Native} {kept : List SpecialForm}
    (h : w.heap.Means scope natives kept) (forms : List Value) :
    (w.openedFor scope forms).heap.Means (w.scopeFor scope forms) natives kept :=
  h.newScope (Entries.find?_single_none (by decide +kernel) _)

/-- An expander that makes `if` stand for one. -/
def Definition.choiceOne : Definition :=
  ⟨true, "if", ["&", "xs"], .int 1⟩

theorem Prelude.reads_choiceOne : Reads "(defmacro! if (fn* (& xs) 1))" Definition.choiceOne := by
  refine read_of_tokens rfl ?_
  with_unfolding_all rfl

/-- In the body of an expander whose parameters hide nothing, too. -/
theorem gives_choiceOne (levels : Nat) (h : w.heap.Defines scope Definition.choiceOne)
    (bindings : Entries String Value) (hfree : Entries.find? "if" bindings = none)
    (args : List Value) :
    ∃ w', Gives (levels + 2) (ofList (.sym "if" :: args)) (w.newScope (some scope) bindings)
      (w.entered (some scope) bindings) (.int 1) w' := by
  obtain ⟨id, hname, hclosure⟩ := h
  have hinner := (World.lookup_newScope (Heap.knows_of_lookup hname) bindings "if").trans
    (by rw [hfree, Option.none_or])
  have hif := Heap.expander?_of_closure (hinner.trans hname) hclosure
  exact ⟨_, .expander (hif args) (.int 1) (.int 1)⟩

end Worlds

namespace Session

variable {fuel : Nat} {scope : ScopeId} {w w' : World} {source : String}

/-- Evaluating the text of a definition is evaluating its last part and binding the name. -/
theorem evalText_define {form : SpecialForm} {name : String} {expr v : Value}
    (hform : form = .define ∨ form = .defineExpander) (hw : w.heap.Global scope)
    (hread : Value.read source = .ok (some (ofList [.sym form.name, .sym name, expr])))
    (hx : (evalWithin (fuel + 1) 199 expr scope >>=
        (if form = .defineExpander then SpecialForm.toExpander else pure)).outcome w =
      some (.ok v, w'))
    (hv : Run.settle v = pure v) :
    (evalText (fuel + 1) source scope).outcome w =
      some (.ok (some v), { w' with heap := w'.heap.bind scope name v }) := by
  let form' := ofList [.sym form.name, .sym name, expr]
  have hsame : w.heap.expander? form' scope = none := by
    refine hw.expander?_definition ?_ _
    obtain rfl | rfl := hform <;> decide
  have hrun : (evalExpanded (evalWithin (fuel + 1) 199) (fuel + 1) form' scope).outcome w =
      some (.ok (.done v), { w' with heap := w'.heap.bind scope name v }) := by
    have hspecial : evalExpanded (evalWithin (fuel + 1) 199) (fuel + 1) form' scope =
        form.runDefine (evalWithin (fuel + 1) 199) scope [.sym name, expr] := by
      obtain rfl | rfl := hform <;> rfl
    rw [hspecial, SpecialForm.runDefine_symbol, outcome_bind_ok _ hx]
    rfl
  have hdefinition : (MiniLisp.eval (fuel + 1) form' scope).outcome w =
      some (.ok v, { w' with heap := w'.heap.bind scope name v }) := by
    refine (evalSteps_done ((evalStep_same hsame).trans hrun)).trans ?_
    rw [hv]
    rfl
  simp only [evalText, hread, ofExcept_ok, pure_bind]
  exact outcome_bind_ok _ hdefinition

theorem evalText_definition {d : Definition} (hw : w.heap.Global scope)
    (hd : SpecialForm.ValidParams d.params) (hread : Prelude.Reads source d) :
    ∃ v, (evalText (fuel + 1) source scope).outcome w = some (.ok (some v), w.defining scope d) := by
  have hparams : SpecialForm.params? (ofList (d.params.map .sym)) = some d.params :=
    SpecialForm.params?_iff.mpr ⟨⟨.nil, .inl rfl⟩, SpecialForm.validParams_iff.mp hd⟩
  let made := w.heap.newClosure (d.closure scope)
  have hfunction : (evalWithin (fuel + 1) 199
      (ofList [.sym "fn*", ofList (d.params.map .sym), d.body]) scope).outcome w =
      some (.ok (.fn made.2 false .nil), { w with heap := made.1 }) :=
    eval_function hw hparams 198
  cases he : d.expander with
  | false =>
    rw [Prelude.Reads, Definition.form, he] at hread
    refine ⟨.fn made.2 false .nil, ?_⟩
    have hends := evalText_define (.inl rfl) hw hread (outcome_bind_ok pure hfunction) rfl
    rw [hends, World.defining, he]
    rfl
  | true =>
    rw [Prelude.Reads, Definition.form, he] at hread
    have hexpander : (SpecialForm.toExpander (.fn made.2 false .nil)).outcome { w with heap := made.1 } =
        some (.ok (.fn (made.1.newClosure (d.closure scope)).2 true .nil),
          { w with heap := (made.1.newClosure (d.closure scope)).1 }) := by
      have hclosure : made.1.closure? made.2 = some (d.closure scope) := Array.getElem?_push_size
      rw [SpecialForm.toExpander, outcome_bind_ok _ (outcome_query _ _), hclosure]
      rfl
    refine ⟨.fn (made.1.newClosure (d.closure scope)).2 true .nil, ?_⟩
    have hends := evalText_define (.inr rfl) hw hread ((outcome_bind_ok _ hfunction).trans hexpander) rfl
    rw [hends, World.defining, he]
    rfl

set_option maxRecDepth 8000 in
theorem evalText_counter (hw : w.heap.Global scope) :
    ∃ v, (evalText (fuel + 1) Prelude.gensymCounter scope).outcome w =
      some (.ok (some v), w.counting scope) := by
  have hread : Value.read Prelude.gensymCounter = .ok (some (ofList [.sym "def!",
      .sym "*gensym-counter*", ofList [.sym "atom", .int 0]])) := by
    refine read_of_tokens rfl ?_
    with_unfolding_all rfl
  have hE := layered_evalWithin (fuel + 1)
  have hargs : InOrder (evalWithin (fuel + 1) 198 · scope) [.int 0] w [.int 0] w :=
    .cons (hE.int 0 scope) .nil
  have hatom : (evalWithin (fuel + 1) 199 (ofList [.sym "atom", .int 0]) scope).outcome w =
      some (.ok (.atom (w.heap.newCell (.int 0)).2 .nil),
        { w with heap := (w.heap.newCell (.int 0)).1 }) :=
    (hE.native rfl (show w.heap.scopes.lookup scope Native.atom.name = _ from hw.lookup_atom)
      hargs).trans rfl
  refine ⟨_, evalText_define (.inl rfl) hw hread (outcome_bind_ok pure hatom) rfl⟩

/-- Texts that are proper definitions of different names make all of them, one after the other. -/
theorem load_definitions {sources : List String} {ds : List Definition} {names : List String}
    (hreads : List.Forall₂ Prelude.Reads sources ds) (hproper : ∀ d ∈ ds, d.Proper)
    (hdistinct : (ds.map Definition.name).Nodup) (hn : ∀ d ∈ ds, d.name ∉ names)
    (hw : w.heap.Global scope) :
    ∃ w', (load (fuel + 1) scope sources).outcome w = some (.ok (), w') ∧ w'.heap.Global scope ∧
      w.heap.Retains scope names w'.heap ∧ w'.heap.cells = w.heap.cells ∧
      ∀ d ∈ ds, w'.heap.Defines scope d := by
  induction hreads generalizing w names with
  | nil => exact ⟨w, rfl, hw, .refl, rfl, List.forall_mem_nil _⟩
  | @cons source d sources ds hread hreads ih =>
    obtain ⟨hd, hds⟩ := List.forall_mem_cons.mp hproper
    obtain ⟨hdn, hdsn⟩ := List.forall_mem_cons.mp hn
    rw [List.map_cons, List.nodup_cons] at hdistinct
    obtain ⟨v, hends⟩ : ∃ v, (evalText (fuel + 1) source scope).outcome w =
        some (.ok (some v), w.defining scope d) := evalText_definition hw hd.params hread
    have hdefined : w.Defined (w.defining scope d) scope d names :=
      World.defined hw hread.clean hdn
    have hlater : ∀ d' ∈ ds, d'.name ∉ d.name :: names := by
      intro d' hd' hmem
      rcases List.mem_cons.mp hmem with heq | hmem
      · exact hdistinct.1 (heq ▸ List.mem_map_of_mem hd')
      · exact hdsn d' hd' hmem
    obtain ⟨w', hload, hglobal, hretains, hcells, hall⟩ :=
      ih hds hdistinct.2 hlater (hdefined.global hd.name)
    refine ⟨w', (load_cons _ hends).trans hload, hglobal, ?_, hcells.trans hdefined.cells, ?_⟩
    · exact hdefined.retains.trans (hretains.mono fun _ => List.mem_cons_of_mem _)
    · exact List.forall_mem_cons.mpr ⟨hdefined.defines.retained hretains List.mem_cons_self, hall⟩

/-- The definition of the counter makes an atom that holds zero. -/
theorem counting_counts (hw : w.heap.Global scope) (hcells : w.heap.cells = #[]) :
    (w.counting scope).heap.Global scope ∧
    w.heap.Retains scope (Definition.early.map Definition.name) (w.counting scope).heap ∧
    (w.counting scope).heap.scopes.lookup scope "*gensym-counter*" = some (.atom ⟨0⟩ .nil) ∧
    (w.counting scope).heap.cells = #[.int 0] := by
  have hmade : (w.heap.newCell (.int 0)).1.Global scope := hw.newCell (.int 0)
  have hretains : w.heap.Retains scope (Definition.early.map Definition.name)
      (w.heap.newCell (.int 0)).1 := ⟨fun _ _ => rfl, fun _ _ hc => hc⟩
  refine ⟨hmade.bind (by decide +kernel) (.atom .nil), hretains.trans (.bind hmade (by decide) _),
    ?_, ?_⟩
  · have hid : (w.heap.newCell (.int 0)).2 = ⟨0⟩ := by simp [Heap.newCell, hcells]
    rw [← hid]
    exact hmade.lookup_bind _ _
  · simp [World.counting, Heap.bind, Heap.newCell, hcells]

theorem load_append {sources : List String} (later : List String)
    (h : (load fuel scope sources).outcome w = some (.ok (), w')) :
    (load fuel scope (sources ++ later)).outcome w = (load fuel scope later).outcome w' := by
  induction sources generalizing w with
  | nil =>
    cases h
    rfl
  | cons source sources ih =>
    rw [load] at h
    obtain ⟨_, w₁, hfirst, hrest⟩ | ⟨fault, -, hfault⟩ := outcome_bind_some h
    · rw [List.cons_append, load, outcome_bind_ok _ hfirst, ih hrest]
    · cases hfault

/-- A new global scope has all that the prelude defines. -/
theorem newGlobal_hasPrelude {files : Files} {input : String} {clock : Int64}
    (h : (newGlobal fuel).outcome (World.start files input clock) = some (.ok scope, w)) :
    w.heap.HasPrelude scope := by
  let w₀ : World := { World.start files input clock with
    heap := (Heap.empty.enter none globalBindings).1 }
  let global := (Heap.empty.enter none globalBindings).2
  have hw₀ : w₀.heap.Global global := global_enter
  obtain ⟨w₁, hload₁, hglobal₁, -, hcells₁, hearly⟩ : ∃ w₁,
      (load (fuel + 1) global [Prelude.negation, Prelude.loadFile]).outcome w₀ =
        some (.ok (), w₁) ∧ _ :=
    load_definitions Prelude.reads_early Definition.proper_early (by decide +kernel)
      (fun d hd => (Definition.proper_early d hd).standard) hw₀
  obtain ⟨v, hcounter⟩ : ∃ v, (evalText (fuel + 1) Prelude.gensymCounter global).outcome w₁ =
      some (.ok (some v), w₁.counting global) := evalText_counter hglobal₁
  obtain ⟨hglobal₂, hretains₂, hlookup, hcells₂⟩ := counting_counts hglobal₁ hcells₁
  obtain ⟨w₃, hload₃, hglobal₃, hretains₃, hcells₃, hlate⟩ : ∃ w₃,
      (load (fuel + 1) global (Prelude.all.drop 3)).outcome (w₁.counting global) =
        some (.ok (), w₃) ∧ _ :=
    load_definitions Prelude.reads_late Definition.proper_late (by decide +kernel)
      (show ∀ d ∈ Definition.late,
          d.name ∉ "*gensym-counter*" :: Definition.early.map Definition.name
        by decide) hglobal₂
  have hdefines : ∀ d ∈ Definition.early ++ Definition.late, w₃.heap.Defines global d := by
    refine List.forall_mem_append.mpr ⟨fun d hd => ?_, hlate⟩
    have hname := List.mem_map_of_mem (f := Definition.name) hd
    exact ((hearly d hd).retained hretains₂ hname).retained hretains₃ (List.mem_cons_of_mem _ hname)
  have hall : (load (fuel + 1) global Prelude.all).outcome w₀ = some (.ok (), w₃) :=
    (load_append _ hload₁).trans ((load_cons _ hcounter).trans hload₃)
  have hstandard := newGlobal_standard h
  have hhangs := newGlobal_hangsOff h
  obtain ⟨rfl, rfl⟩ := newGlobal_of_load h hall
  refine ⟨hstandard, hhangs, hglobal₃, hdefines, ?_, ?_⟩
  · exact (hretains₃.names _ List.mem_cons_self).trans hlookup
  · simp [Heap.cell, hcells₃, hcells₂]

/-- A program that defines something under a name that was not given keeps all that was, and the special
forms with other names. -/
theorem evalText_beside {d : Definition} (h : w.heap.HasPrelude scope)
    (hparams : SpecialForm.ValidParams d.params) (hread : Prelude.Reads source d)
    (hgiven : d.name ∉ givenNames) :
    (∃ v, (evalText (fuel + 1) source scope).outcome w = some (.ok (some v), w.defining scope d)) ∧
    (w.defining scope d).heap.Unrebound scope ∧ (w.defining scope d).heap.Defines scope d ∧
    ∀ form : SpecialForm, form.name ≠ d.name →
      (w.defining scope d).heap.scopes.lookup scope form.name = none := by
  let others := (SpecialForm.all.map SpecialForm.name).filter (· ≠ d.name)
  have hothers : d.name ∉ others ++ givenNames := by simp [others, hgiven]
  have hdefined := World.defined h.global hread.clean hothers
  refine ⟨evalText_definition h.global hparams hread, ?_, hdefined.defines, fun form hform => ?_⟩
  · exact h.unrebound.retained (hdefined.retains.mono fun _ => List.mem_append_right _)
  · have hmem : form.name ∈ others := by
      have hall : form ∈ SpecialForm.all := by cases form <;> decide
      exact List.mem_filter.mpr ⟨List.mem_map_of_mem hall, decide_eq_true hform⟩
    exact (hdefined.retains.names _ (List.mem_append_left _ hmem)).trans (h.standard.form form)

end Session
end MiniLisp
