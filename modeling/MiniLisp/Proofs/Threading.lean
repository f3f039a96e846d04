import MiniLisp.Proofs.OpenedScopes
import MiniLisp.Proofs.PreludeDefinitions

namespace MiniLisp

open Value Run

/-- The two threading macros. -/
inductive Threading where
  | first | last

namespace Threading

def name : Threading → String
  | first => "->"
  | last => "->>"

def definition : Threading → Definition
  | first => .threadFirst
  | last => .threadLast

/-- The form with what has been reached in it: of a list, behind its first element or at its end. An
empty list has no first element, so nil stands there. What is no list is called. -/
def into (t : Threading) (reached form : Value) : Value :=
  match t, form with
  | first, list [] _ => ofList [nil, reached]
  | first, list (head :: args) _ => ofList (head :: reached :: args)
  | last, list items _ => ofList (items ++ [reached])
  | _, form => ofList [form, reached]

/-- The call of the macro. -/
def call (t : Threading) (x : Value) (forms : List Value) : Value :=
  ofList (.sym t.name :: x :: forms)

/-- All forms put into one. -/
def folded (t : Threading) (x : Value) (forms : List Value) : Value :=
  forms.foldl t.into x

/-- Neither the form nor, where it is taken out of it, its first element is an error. -/
structure Accepts (t : Threading) (form : Value) : Prop where
  settled : Run.settle form = pure form
  head : t = first → ∀ head args note, form = list (head :: args) note → Run.settle head = pure head

/-- The natives that the definitions call. -/
def natives : List Native :=
  [.isEmpty, .first, .rest, .isList, .list, .cons, .concat]

/-- The special forms in the definitions. -/
def specialForms : List SpecialForm :=
  [.choice, .letIn, .quote, .quasiquote]

/-- The template of a form with what has been reached in it. -/
def template : Threading → Value
  | first => ofList [Definition.unquote (ofList [.sym "first", .sym "form"]),
      Definition.unquote (.sym "x"), Definition.splice (ofList [.sym "rest", .sym "form"])]
  | last => ofList [Definition.splice (.sym "form"), Definition.unquote (.sym "x")]

/-- The template of the call with one form less. -/
def nextTemplate (t : Threading) : Value :=
  ofList [.sym t.name, Definition.unquote (.sym "threaded"),
    Definition.splice (ofList [.sym "rest", .sym "forms"])]

/-- Puts what has been reached into the first form. -/
def threaded (t : Threading) : Value :=
  ofList [.sym "if", ofList [.sym "list?", .sym "form"], ofList [.sym "quasiquote", t.template],
    ofList [.sym "list", .sym "form", .sym "x"]]

/-- What the prelude says of both macros. -/
theorem body_eq (t : Threading) : t.definition.body =
    ofList [.sym "if", ofList [.sym "empty?", .sym "forms"], .sym "x",
      ofList [.sym "let*", ofList [.sym "form", ofList [.sym "first", .sym "forms"],
          .sym "threaded", t.threaded],
        ofList [.sym "quasiquote", t.nextTemplate]]] := by
  cases t <;> rfl

end Threading

/-- In the scope the name of the macro stands for what the prelude defines in the global scope, and there
the names in the definition mean what they say. -/
structure Heap.HasThreading (heap : Heap) (t : Threading) (global scope : ScopeId) : Prop where
  names : heap.Means global Threading.natives Threading.specialForms
  expander : ∃ id note, heap.scopes.lookup scope t.name = some (.fn id true note) ∧
    heap.closure? id = some (t.definition.closure global)

namespace Threading

variable {levels : Nat} {global scope : ScopeId} {w : World} {t : Threading} {x form note : Value}
  {more items : List Value} {kept : List SpecialForm}

theorem gives_isList (h : w.heap.Means scope natives kept)
    (hform : w.heap.scopes.lookup scope "form" = some form) (hsettled : Run.settle form = pure form) :
    Gives (levels + 2) (ofList [.sym "list?", .sym "form"]) scope w
      (.bool (form matches .list ..)) w := by
  obtain ⟨_, hlist⟩ := h.native .isList (by decide)
  refine .compute .isList rfl rfl hlist (.cons (.symbol hform hsettled) .nil) rfl ?_ rfl
  cases form <;> rfl

/-- The template of a list with what has been reached in it. -/
theorem gives_template (h : w.heap.Means scope natives specialForms)
    (hform : w.heap.scopes.lookup scope "form" = some (.list items note))
    (haccepts : t.Accepts (.list items note))
    (hx : w.heap.scopes.lookup scope "x" = some x) (hsettled : Run.settle x = pure x) :
    Gives (levels + 5) t.template.template scope w (t.into x (.list items note)) w := by
  obtain ⟨_, hfirst⟩ := h.native .first (by decide)
  obtain ⟨_, hrest⟩ := h.native .rest (by decide)
  obtain ⟨_, hcons⟩ := h.native .cons (by decide)
  obtain ⟨_, hconcat⟩ := h.native .concat (by decide)
  have hname (l : Nat) : Gives (l + 1) (.sym "form") scope w (.list items note) w :=
    .symbol hform haccepts.settled
  have hreached (l : Nat) : Gives (l + 1) (.sym "x") scope w x w := .symbol hx hsettled
  have hend (l : Nat) : Gives (l + 1) (quoted (ofList [])) scope w (ofList []) w :=
    .quote (h.form .quote (by decide)) rfl
  cases t with
  | first =>
    have hhead : Gives (levels + 4) (ofList [.sym "first", .sym "form"]) scope w
        (items.headD .nil) w := by
      refine .compute .first rfl rfl hfirst (.cons (hname _) .nil) rfl ?_ ?_
      · cases items <;> rfl
      · cases items with
        | nil => rfl
        | cons head args => exact haccepts.head rfl head args note rfl
    have hargs : Gives (levels + 2) (ofList [.sym "rest", .sym "form"]) scope w
        (ofList items.tail) w :=
      .compute .rest rfl rfl hrest (.cons (hname _) .nil) rfl rfl rfl
    have hfilled : Gives (levels + 5) (template first).template scope w
        (ofList (items.headD .nil :: x :: (items.tail ++ []))) w :=
      .cons hcons hhead (.cons hcons (hreached _) (.concat hconcat hargs (hend _)))
    cases items <;> simpa [into] using hfilled
  | last =>
    have hlast : Gives (levels + 4) (ofList [.sym "cons", .sym "x", quoted (ofList [])]) scope w
        (ofList [x]) w :=
      .cons hcons (hreached _) (hend _)
    refine .compute .concat rfl rfl hconcat (.cons (hname _) (.cons hlast .nil)) rfl ?_ rfl
    change Except.ok (ofList [items, [x]].flatten) = _
    simp [into]

/-- What has been reached is put into the form. -/
theorem gives_threaded (h : w.heap.Means scope natives specialForms)
    (hform : w.heap.scopes.lookup scope "form" = some form) (haccepts : t.Accepts form)
    (hx : w.heap.scopes.lookup scope "x" = some x) (hsettled : Run.settle x = pure x) :
    Gives (levels + 5) t.threaded scope w (t.into x form) w := by
  obtain ⟨_, hlist⟩ := h.native .list (by decide)
  refine .choice (h.form .choice (by decide)) (gives_isList h hform haccepts.settled) ?_
  cases form with
  | list items note =>
    exact .quasiquote (h.form .quasiquote (by decide)) (gives_template h hform haccepts hx hsettled)
  | _ =>
    refine .compute .list rfl rfl hlist (.cons (.symbol hform haccepts.settled)
      (.cons (.symbol hx hsettled) .nil)) rfl ?_ ?_ <;> cases t <;> rfl

theorem into_settled (t : Threading) (x form : Value) :
    Run.settle (t.into x form) = pure (t.into x form) := by
  unfold into
  split <;> rfl

/-- What is bound where the definition is evaluated. -/
def bindings (x : Value) (forms : List Value) : Entries String Value :=
  [("forms", ofList forms), ("x", x)]

theorem bindParams_eq (t : Threading) (x : Value) (forms : List Value) :
    bindParams [] t.definition.params (x :: forms) = bindings x forms := by
  cases t <;> rfl

/-- The parameters hide none of the standard names. -/
theorem means_opened (h : w.heap.Means global natives specialForms) (x : Value) (rest : List Value) :
    (w.entered (some global) (bindings x rest)).heap.Means
      (w.newScope (some global) (bindings x rest)) natives specialForms := by
  refine h.newScope fun name hname => ?_
  have hforms : "forms" ≠ name := by
    rintro rfl
    exact absurd hname (by decide +kernel)
  have hx : "x" ≠ name := by
    rintro rfl
    exact absurd hname (by decide +kernel)
  simp [bindings, Entries.find?, hforms, hx]

/-- Without further forms there is what has been reached. -/
theorem gives_reached (levels : Nat) (t : Threading) (h : w.heap.Means global natives specialForms)
    (hx : Run.settle x = pure x) :
    Gives (levels + 6) t.definition.body (w.newScope (some global) (bindings x []))
        (w.entered (some global) (bindings x [])) x (w.entered (some global) (bindings x [])) := by
  have hopened := means_opened h x []
  obtain ⟨_, hempty⟩ := hopened.native .isEmpty (by decide)
  have hlookup := World.lookup_newScope h.known (bindings x [])
  rw [t.body_eq]
  refine .choice (hopened.form .choice (by decide))
    (.isEmpty hempty (.symbol (hlookup "forms") rfl)) ?_
  exact .symbol (hlookup "x") hx

/-- Otherwise the macro is called with one form less, and the first form has taken up what has been
reached. -/
theorem gives_call (levels : Nat) (h : w.heap.Means global natives specialForms)
    (hx : Run.settle x = pure x) (haccepts : t.Accepts form) (more : List Value) :
    ∃ w', Gives (levels + 6) t.definition.body (w.newScope (some global) (bindings x (form :: more)))
        (w.entered (some global) (bindings x (form :: more))) (t.call (t.into x form) more) w' ∧
      w.Opens w' := by
  let opened := w.entered (some global) (bindings x (form :: more))
  let outer := w.newScope (some global) (bindings x (form :: more))
  let letOpened := opened.entered (some outer) []
  let inner := opened.newScope (some outer) []
  let taken := letOpened.binding inner "form" form
  let reached := taken.binding inner "threaded" (t.into x form)
  have hopened : opened.heap.Means outer natives specialForms := means_opened h x (form :: more)
  have hinner : letOpened.heap.Means inner natives specialForms := hopened.newScope fun _ _ => rfl
  have htaken : taken.heap.Means inner natives specialForms := hinner.binding (by decide +kernel) _ _
  have hreached : reached.heap.Means inner natives specialForms := htaken.binding (by decide +kernel) _ _
  -- the parameters mean the same in both scopes, before and after the bindings
  have hlookup (name : String) : letOpened.heap.scopes.lookup inner name =
      (Entries.find? name (bindings x (form :: more))).or (w.heap.scopes.lookup global name) :=
    (World.lookup_newScope hopened.known [] name).trans (World.lookup_newScope h.known _ name)
  have hkept {name : String} (hform : "form" ≠ name) :
      taken.heap.scopes.lookup inner name = letOpened.heap.scopes.lookup inner name :=
    World.lookup_binding_ne hinner.known hform inner _
  have hkept' {name : String} (hthreaded : "threaded" ≠ name) :
      reached.heap.scopes.lookup inner name = taken.heap.scopes.lookup inner name :=
    World.lookup_binding_ne htaken.known hthreaded inner _
  obtain ⟨_, hempty⟩ := hopened.native .isEmpty (by decide)
  obtain ⟨_, hfirst⟩ := hinner.native .first (by decide)
  obtain ⟨_, hrest⟩ := hreached.native .rest (by decide)
  obtain ⟨_, hcons⟩ := hreached.native .cons (by decide)
  obtain ⟨_, hconcat⟩ := hreached.native .concat (by decide)
  have hrow : BindsAll (levels + 5) inner
      [.sym "form", ofList [.sym "first", .sym "forms"], .sym "threaded", t.threaded] letOpened
      reached := by
    refine .cons (.first hfirst (.symbol (hlookup "forms") rfl) haccepts.settled) (.cons ?_ .nil)
    exact gives_threaded htaken (World.lookup_binding_self hinner.known _ _) haccepts
      ((hkept (by decide)).trans (hlookup "x")) hx
  have hquoted (l : Nat) (v : Value) (hv : Run.settle v = pure v) :
      Gives (l + 1) (quoted v) inner reached v reached := .quote (hreached.form .quote (by decide)) hv
  have hforms (l : Nat) : Gives (l + 1) (.sym "forms") inner reached (ofList (form :: more)) reached :=
    .symbol ((hkept' (by decide)).trans ((hkept (by decide)).trans (hlookup "forms"))) rfl
  have hnext : Gives (levels + 6) t.nextTemplate.template inner reached
      (t.call (t.into x form) (more ++ [])) reached := by
    have htemplate : t.nextTemplate.template = ofList [.sym "cons", quoted (.sym t.name),
        ofList [.sym "cons", .sym "threaded", ofList [.sym "concat",
          ofList [.sym "rest", .sym "forms"], quoted (ofList [])]]] := by
      cases t <;> rfl
    rw [htemplate]
    refine .cons hcons (hquoted _ (.sym t.name) rfl)
      (.cons hcons (.symbol ?_ (t.into_settled x form)) ?_)
    · exact World.lookup_binding_self htaken.known _ _
    · exact .concat hconcat (.rest hrest (hforms _)) (hquoted _ (ofList []) rfl)
  rw [List.append_nil] at hnext
  refine ⟨reached, ?_, ?_⟩
  · rw [t.body_eq]
    refine .choice (hopened.form .choice (by decide))
      (.isEmpty hempty (.symbol (World.lookup_newScope h.known _ "forms") rfl)) ?_
    exact .letAll (hopened.form .letIn (by decide)) (by simp) hrow
      (.quasiquote (hreached.form .quasiquote (by decide)) hnext)
  · have hnew : ¬ w.heap.Knows inner := fun hk =>
      World.not_knows_newScope opened (some outer) [] ((Heap.Extends.enter w.heap _ _).knows hk)
    exact ((((World.Opens.refl w).entered _ _).entered _ _).binding hnew _ _).binding hnew _ _

end Threading

namespace Heap.HasThreading

variable {heap : Heap} {global scope : ScopeId} {w w' : World} {t : Threading}

theorem known (h : heap.HasThreading t global scope) : heap.Knows scope := by
  obtain ⟨_, _, hname, -⟩ := h.expander
  exact knows_of_lookup hname

theorem opened (h : w.heap.HasThreading t global scope) (hopens : w.Opens w') :
    w'.heap.HasThreading t global scope where
  names := h.names.transfer (hopens.knows h.names.known) fun name _ =>
    hopens.lookup h.names.known name
  expander := by
    obtain ⟨id, note, hname, hclosure⟩ := h.expander
    exact ⟨id, note, (hopens.lookup h.known _).trans hname, (hopens.closure? id).trans hclosure⟩

end Heap.HasThreading

section Expansion

variable {levels : Nat} {global scope : ScopeId} {w w' : World} {t : Threading} {x form m : Value}
  {forms more : List Value} {o : Ending Value}

/-- The call of the macro is expanded as what its definition comes to is. -/
theorem Threading.expands_call (h : w.heap.HasThreading t global scope)
    (hbody : Gives levels t.definition.body (w.newScope (some global) (bindings x forms))
      (w.entered (some global) (bindings x forms)) m w')
    (hm : Expands levels m scope w' o) : Expands levels (t.call x forms) scope w o := by
  obtain ⟨id, note, hname, hclosure⟩ := h.expander
  rw [← t.bindParams_eq] at hbody
  exact .expander (Heap.expander?_of_closure hname hclosure (x :: forms)) hbody hm

/-- One form is put in. -/
theorem Threading.expands_step (h : w.heap.HasThreading t global scope) (hx : Run.settle x = pure x)
    (haccepts : t.Accepts form) (more : List Value) :
    ∃ w', w.Opens w' ∧ ∀ o, Expands (levels + 6) (t.call (t.into x form) more) scope w' o →
      Expands (levels + 6) (t.call x (form :: more)) scope w o := by
  obtain ⟨w', hbody, hopens⟩ := gives_call levels h.names hx haccepts more
  exact ⟨w', hopens, fun _ ho => t.expands_call h hbody ho⟩

/-- All forms are put in, one after the other. -/
theorem Threading.expands_run (h : w.heap.HasThreading t global scope) (hx : Run.settle x = pure x)
    (hforms : ∀ form ∈ forms, t.Accepts form) :
    ∃ w', w.Opens w' ∧ ∀ o, Expands (levels + 6) (t.folded x forms) scope w' o →
      Expands (levels + 6) (t.call x forms) scope w o := by
  induction forms generalizing x w with
  | nil =>
    exact ⟨_, (World.Opens.refl w).entered _ _, fun _ ho =>
      t.expands_call h (gives_reached levels t h.names hx) ho⟩
  | cons form more ih =>
    obtain ⟨hform, hmore⟩ := List.forall_mem_cons.mp hforms
    obtain ⟨w₁, hopens, hstep⟩ := expands_step h hx hform more
    obtain ⟨w₂, hopens', hrun⟩ := ih (h.opened hopens) (t.into_settled x form) hmore
    exact ⟨w₂, hopens.trans hopens', fun o ho => hstep o (hrun o ho)⟩

end Expansion

variable {levels : Nat} {global scope : ScopeId} {w : World} {t : Threading} {x : Value}
  {forms : List Value}

/-- A threading macro is expanded as the form into which all forms have been put, one after the other,
however many there are, and six levels are enough for that. Up to there scopes have been opened and
nothing else has happened, so that the expansion ends like that of the form into which they have been put
does from the beginning. -/
theorem threading_expands (hlevels : 6 ≤ levels) (h : w.heap.HasThreading t global scope)
    (hw : w.heap.KnowsFunctions) (hx : Run.settle x = pure x)
    (hforms : ∀ form ∈ forms, t.Accepts form) :
    ∃ w' o o', w.Opens w' ∧ Expands levels (t.call x forms) scope w o ∧
      Expands levels (t.folded x forms) scope w' o ∧ Expands levels (t.folded x forms) scope w o' ∧
      Ending.Alike w o' o := by
  obtain ⟨levels, rfl⟩ : ∃ l, levels = l + 6 := ⟨levels - 6, by omega⟩
  obtain ⟨w', hopens, hrun⟩ := Threading.expands_run h hx hforms
  obtain ⟨o', o, hfirst, hopened, halike⟩ :=
    expands_opened (levels + 6) (t.folded x forms) hopens hw h.known
  exact ⟨w', o, o', hopens, hrun o hopened, hopened, hfirst, halike⟩

/-- In a new global scope the macros have their meanings. -/
theorem Heap.HasPrelude.hasThreading {heap : Heap} (h : heap.HasPrelude global) (t : Threading) :
    heap.HasThreading t global global where
  names := h.unrebound.means _ _ fun form _ => h.standard.form form
  expander := by
    cases t with
    | first =>
      obtain ⟨id, hname, hclosure⟩ := h.defines Definition.threadFirst (by simp [Definition.late])
      exact ⟨id, _, hname, hclosure⟩
    | last =>
      obtain ⟨id, hname, hclosure⟩ := h.defines Definition.threadLast (by simp [Definition.late])
      exact ⟨id, _, hname, hclosure⟩

/-- In a new global scope a number goes into a list, a vector and a list without elements. -/
theorem threading_expands_numbers :
    ∃ global w, (Session.newGlobal 1).outcome (World.start Files.empty "" 0) =
        some (.ok global, w) ∧
      w.heap.HasThreading .first global global ∧ w.heap.KnowsFunctions ∧
      ∃ w' o o', w.Opens w' ∧
        Expands 20 (Threading.first.call (.int 7)
          [ofList [.sym "-", .int 1], .vec [.int 2] .nil, ofList []]) global w o ∧
        Expands 20 (ofList [.nil, ofList [.vec [.int 2] .nil,
          ofList [.sym "-", .int 7, .int 1]]]) global w' o ∧
        Expands 20 (ofList [.nil, ofList [.vec [.int 2] .nil,
          ofList [.sym "-", .int 7, .int 1]]]) global w o' ∧ Ending.Alike w o' o := by
  obtain ⟨global, w, hnew, -⟩ := Session.newGlobal_makes 0 Files.empty "" 0
  have hprelude := Session.newGlobal_hasPrelude hnew
  have hthreading := hprelude.hasThreading .first
  have hfunctions := hprelude.hangsOff.functions
  have haccepts : ∀ form ∈ [ofList [.sym "-", .int 1], .vec [.int 2] .nil, ofList []],
      Threading.first.Accepts form := by
    refine List.forall_mem_cons.mpr ⟨⟨rfl, fun _ head args note heq => ?_⟩,
      List.forall_mem_cons.mpr ⟨⟨rfl, fun _ head args note heq => ?_⟩,
        List.forall_mem_singleton.mpr ⟨rfl, fun _ head args note heq => ?_⟩⟩⟩
    all_goals cases heq
    rfl
  exact ⟨global, w, hnew, hthreading, hfunctions,
    threading_expands (by decide) hthreading hfunctions rfl haccepts⟩

/-- The natives and the prelude are not all that the macros rest on: once `if` is an expander in the
global scope, a number without forms is no longer expanded as itself. -/
theorem threading_rests_on_forms :
    ∃ global w v w' w'', (Session.newGlobal 1).outcome (World.start Files.empty "" 0) =
        some (.ok global, w) ∧
      (Session.evalText 1 "(defmacro! if (fn* (& xs) 1))" global).outcome w =
        some (.ok (some v), w') ∧
      w'.heap.Unrebound global ∧
      Expands 199 (Threading.first.call (.int 7) []) global w' (some (.ok (.int 1), w'')) ∧
      Expands 199 (Threading.first.folded (.int 7) []) global w' (some (.ok (.int 7), w')) := by
  obtain ⟨global, w, hnew, -⟩ := Session.newGlobal_makes 0 Files.empty "" 0
  obtain ⟨⟨v, hdefined⟩, hunrebound, hchoice, -⟩ :=
    Session.evalText_beside (Session.newGlobal_hasPrelude hnew) (by decide)
      Prelude.reads_choiceOne (by decide +kernel)
  have hfirst := hunrebound.defines Definition.threadFirst (by simp [Definition.late])
  obtain ⟨w'', hbody⟩ := gives_choiceOne 197 hchoice (Threading.bindings (.int 7) []) rfl _
  rw [← Threading.body_eq .first] at hbody
  exact ⟨global, w, v, _, w'', hnew, hdefined, hunrebound,
    .expander (hfirst.expander? rfl [.int 7]) hbody (.done rfl), .done rfl⟩

end MiniLisp
