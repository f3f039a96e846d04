import MiniLisp.Proofs.InnerScopes

namespace MiniLisp

open Value Run

/-- The natives that the connectives call. -/
def connectiveNatives : List Native :=
  [.isEmpty, .equal, .count, .first, .rest, .cons, .concat]

/-- The special forms that they are defined with and expanded to. -/
def connectiveForms : List SpecialForm :=
  [.choice, .letIn, .quote, .quasiquote]

inductive Connective where
  | disjunction
  | conjunction

namespace Connective

/-- The value of no operands at all. -/
def neutral : Connective → Value
  | disjunction => .nil
  | conjunction => .bool true

/-- A value with this truth decides. -/
def decisive : Connective → Bool
  | disjunction => true
  | conjunction => false

/-- The branches that are chosen between: one holds what has been reached, the other one goes on. -/
def branches {α : Type} (held again : α) : Connective → α × α
  | disjunction => (held, again)
  | conjunction => (again, held)

def name : Connective → String
  | disjunction => "or"
  | conjunction => "and"

def definition : Connective → Definition
  | disjunction => .disjunction
  | conjunction => .conjunction

/-- The call of the connective with these forms. -/
def form (c : Connective) (forms : List Value) : Value :=
  ofList (.sym c.name :: forms)

/-- The choice between what is held in the name and the connective with the other forms. -/
def choice (c : Connective) (held : String) (forms : List Value) : Value :=
  let (yes, no) := c.branches (.sym held) (c.form forms)
  ofList [.sym "if", .sym held, yes, no]

/-- What two forms and more are expanded to. -/
def expansion (c : Connective) (held : String) (first : Value) (others : List Value) : Value :=
  ofList [.sym "let*", ofList [.sym held, first], c.choice held others]

/-- The template of that. -/
def template (c : Connective) : Value :=
  let (yes, no) := c.branches (Definition.unquote (.sym "condvar")) (Definition.again c.name "xs")
  Definition.holding yes no

/-- What the prelude says of both connectives. -/
theorem body_eq (c : Connective) : c.definition.body =
    ofList [.sym "if", ofList [.sym "empty?", .sym "xs"], c.neutral,
      ofList [.sym "if", ofList [.sym "=", .int 1, ofList [.sym "count", .sym "xs"]],
        ofList [.sym "first", .sym "xs"],
        ofList [.sym "let*", ofList [.sym "condvar", ofList [.sym "gensym"]],
          ofList [.sym "quasiquote", c.template]]]] := by
  cases c <;> rfl

end Connective

/-- In the global scope the connective and `gensym` are what the prelude defines, the names in their
definitions mean what they say, the counter can count on, and the operand that is next is not an
expander. -/
structure Heap.HasConnective (heap : Heap) (global : ScopeId) (counter : CellId) (c : Connective)
    (operands : List String) : Prop where
  outermost : ¬ heap.Inner global
  names : heap.Means global connectiveNatives connectiveForms
  connective : heap.Defines global c.definition
  gensym : heap.HasGensym global counter
  counts : 1 < operands.length →
    ∃ n m : Int64, heap.cell counter = .int n ∧ m.toInt = n.toInt + 1
  operand : ∀ f ∈ operands.head?, ∀ id note, heap.scopes.lookup global f ≠ some (.fn id true note)

/-- The connective with these operands ends like this, as long as it stays what it is. The operands are
called in the global scope, one after the other, up to the first that decides or does not end well.
Between the calls there is nothing but new scopes and functions, the counter, and the value that is held
in one of the new scopes. -/
inductive ShortCircuits (c : Connective) (global : ScopeId) (counter : CellId) (levels : Nat) :
    List String → World → Ending Value → Prop
  | neutral {w w'} (expanded : w.Apart counter w') :
      ShortCircuits c global counter levels [] w (some (.ok c.neutral, w'))
  | last {f w w₁ o} (expanded : w.Apart counter w₁)
      (call : Evaluates (levels + 1) (callOf f) global w₁ o) :
      ShortCircuits c global counter levels [f] w o
  | notOk {f g fs w w₁ o} (expanded : w.Apart counter w₁)
      (call : Evaluates levels (callOf f) global w₁ o) (ends : ∀ v w', o ≠ some (.ok v, w')) :
      ShortCircuits c global counter levels (f :: g :: fs) w o
  | decides {f g fs w w₁ v w₂ inner held o} (expanded : w.Apart counter w₁)
      (call : Gives levels (callOf f) global w₁ v w₂) (new : ¬ w.heap.Knows inner)
      (decisive : v.isTruthy = c.decisive)
      (ending : (∀ id note, w₂.heap.scopes.lookup global "if" ≠ some (.fn id true note)) →
        o = some (.ok v, w₂.binding inner held v)) :
      ShortCircuits c global counter levels (f :: g :: fs) w o
  | goesOn {f g fs w w₁ v w₂ inner held o} (expanded : w.Apart counter w₁)
      (call : Gives levels (callOf f) global w₁ v w₂) (new : ¬ w.heap.Knows inner)
      (undecided : v.isTruthy ≠ c.decisive)
      (others : (w₂.binding inner held v).heap.HasConnective global counter c (g :: fs) →
        ShortCircuits c global counter levels (g :: fs) (w₂.binding inner held v) o) :
      ShortCircuits c global counter levels (f :: g :: fs) w o

section Expansion

variable {levels : Nat} {global scope : ScopeId} {w : World} {c : Connective} {x : Value}
  {forms more : List Value} {held : String} {kept : List SpecialForm}

/-- The template is filled in. -/
theorem gives_expansion (h : w.heap.Means scope connectiveNatives kept)
    (hquote : SpecialForm.quote ∈ kept) (hx : Run.settle x = Pure.pure x)
    (hheld : w.heap.scopes.lookup scope "condvar" = some (.sym held))
    (hxs : w.heap.scopes.lookup scope "xs" = some (ofList (x :: more))) :
    Gives (levels + 11) c.template.template scope w (c.expansion held x more) w := by
  obtain ⟨_, hcons⟩ := h.native .cons (by decide)
  obtain ⟨_, hconcat⟩ := h.native .concat (by decide)
  obtain ⟨_, hfirst⟩ := h.native .first (by decide)
  obtain ⟨_, hrest⟩ := h.native .rest (by decide)
  let held' := Definition.unquote (.sym "condvar")
  let again' := Definition.again c.name "xs"
  let consed := fun x y => ofList [.sym "cons", x, y]
  let done := quoted (ofList [])
  have hname (l : Nat) : Gives (l + 1) (.sym "condvar") scope w (.sym held) w := .symbol hheld rfl
  have hquoted (l : Nat) (v : Value) (hv : Run.settle v = Pure.pure v) :
      Gives (l + 1) (quoted v) scope w v w := .quote (h.form .quote hquote) hv
  have hagain (l : Nat) : Gives (l + 4) (Definition.again c.name "xs").template scope w
      (c.form more) w := by
    have hrow : (Definition.again c.name "xs").template = ofList [.sym "cons", quoted (.sym c.name),
        ofList [.sym "concat", ofList [.sym "rest", .sym "xs"], quoted (ofList [])]] := by
      cases c <;> rfl
    have hmore : c.form more = ofList (.sym c.name :: (more ++ [])) := by
      rw [Connective.form, List.append_nil]
    rw [hrow, hmore]
    exact .cons hcons (hquoted _ _ rfl)
      (.concat hconcat (.rest hrest (.symbol hxs rfl)) (hquoted _ (ofList []) rfl))
  have hbranches : ∀ l,
      Gives (l + 4) (c.branches held' again').1.template scope w
        (c.branches (.sym held) (c.form more)).1 w ∧
      Gives (l + 4) (c.branches held' again').2.template scope w
        (c.branches (.sym held) (c.form more)).2 w := by
    intro l
    cases c with
    | disjunction => exact ⟨hname _, hagain l⟩
    | conjunction => exact ⟨hagain l, hname _⟩
  have hrow : c.template.template = consed (quoted (.sym "let*"))
      (consed (consed (.sym "condvar") (consed (ofList [.sym "first", .sym "xs"]) done))
        (consed (consed (quoted (.sym "if")) (consed (.sym "condvar")
          (consed (c.branches held' again').1.template
            (consed (c.branches held' again').2.template done)))) done)) := by
    cases c <;> rfl
  have hdone (l : Nat) : Gives (l + 1) done scope w (ofList []) w := hquoted l _ rfl
  have hbinding (l : Nat) : Gives (l + 4)
      (consed (.sym "condvar") (consed (ofList [.sym "first", .sym "xs"]) done)) scope w
      (ofList [.sym held, x]) w :=
    .cons hcons (hname _) (.cons hcons (.first hfirst (.symbol hxs rfl) hx) (hdone _))
  have hchoice (l : Nat) : Gives (l + 8)
      (consed (quoted (.sym "if")) (consed (.sym "condvar")
        (consed (c.branches held' again').1.template
          (consed (c.branches held' again').2.template done)))) scope w (c.choice held more) w :=
    .cons hcons (hquoted _ _ rfl) (.cons hcons (hname _)
      (.cons hcons (hbranches _).1 (.cons hcons (hbranches _).2 (hdone _))))
  rw [hrow]
  exact .cons hcons (hquoted _ _ rfl)
    (.cons hcons (hbinding _) (.cons hcons (hchoice _) (hdone _)))

/-- Whether there is one form only. -/
theorem gives_isOne (h : w.heap.Means scope connectiveNatives kept)
    (hxs : w.heap.scopes.lookup scope "xs" = some (ofList forms)) {k : Int64}
    (hk : k.toInt = forms.length) :
    Gives (levels + 3) (ofList [.sym "=", .int 1, ofList [.sym "count", .sym "xs"]]) scope w
      (.bool (k == 1)) w := by
  obtain ⟨_, hequal⟩ := h.native .equal (by decide)
  obtain ⟨_, hcount⟩ := h.native .count (by decide)
  exact .native .equal rfl hequal (.cons (.int 1) (.cons (.count hcount (.symbol hxs rfl) hk) .nil))
    (.of_succ 0 fun _ _ => equal_outcome 1 k) rfl

theorem gives_neutral (levels : Nat) (h : w.heap.Means scope connectiveNatives kept)
    (hif : SpecialForm.choice ∈ kept)
    (hxs : w.heap.scopes.lookup scope "xs" = some (ofList [])) :
    Gives (levels + 3) c.definition.body scope w c.neutral w := by
  obtain ⟨_, hempty⟩ := h.native .isEmpty (by decide)
  rw [c.body_eq]
  refine .choice (h.form .choice hif) (.isEmpty hempty (.symbol hxs rfl)) ?_
  cases c with
  | disjunction => exact .nil
  | conjunction => exact .bool true

theorem gives_only (levels : Nat) (h : w.heap.Means scope connectiveNatives kept)
    (hif : SpecialForm.choice ∈ kept) (hx : Run.settle x = Pure.pure x)
    (hxs : w.heap.scopes.lookup scope "xs" = some (ofList [x])) :
    Gives (levels + 4) c.definition.body scope w x w := by
  obtain ⟨_, hempty⟩ := h.native .isEmpty (by decide)
  obtain ⟨_, hfirst⟩ := h.native .first (by decide)
  rw [c.body_eq]
  refine .choice (h.form .choice hif) (.isEmpty hempty (.symbol hxs rfl)) ?_
  refine .choice (h.form .choice hif) (gives_isOne h hxs (k := 1) rfl) ?_
  exact .first hfirst (.symbol hxs rfl) hx

theorem gives_held (levels : Nat) {counter : CellId} {n m k : Int64} {y : Value}
    (hnames : w.heap.Means global connectiveNatives connectiveForms)
    (hgensym : w.heap.HasGensym global counter) (hcount : w.heap.cell counter = .int n)
    (hm : m.toInt = n.toInt + 1) (hx : Run.settle x = Pure.pure x)
    (hk : k.toInt = (x :: y :: more).length) :
    ∃ held w', Gives (levels + 11) c.definition.body (w.scopeFor global (x :: y :: more))
        (w.openedFor global (x :: y :: more)) (c.expansion held x (y :: more)) w' ∧
      Generated held ∧ w.Apart counter w' := by
  let forms := x :: y :: more
  let opened := w.openedFor global forms
  let outer := w.scopeFor global forms
  let letOpened := opened.entered (some outer) []
  let inner := opened.newScope (some outer) []
  have hbody : opened.heap.Means outer _ _ := hnames.scopeFor forms
  have hxs : opened.heap.scopes.lookup outer "xs" = some (ofList forms) :=
    World.lookup_forms hnames.known forms
  have hinner : letOpened.heap.Means inner _ _ := hbody.newScope fun _ _ => rfl
  have hopened : opened.heap.Knows global := (Heap.Extends.enter w.heap _ _).knows hnames.known
  have hgensymName : letOpened.heap.scopes.lookup inner "gensym" =
      letOpened.heap.scopes.lookup global "gensym" :=
    ((World.lookup_newScope hbody.known [] _).trans
      (World.lookup_beside_forms hnames.known forms (by decide))).trans
        ((World.lookup_entered hopened (some outer) [] _).trans
          (World.lookup_entered hnames.known _ _ _)).symm
  have hgensym' : letOpened.heap.HasGensym global counter := (hgensym.entered _ _).entered _ _
  obtain ⟨w₁, hgiven, hapart⟩ := hgensym'.gives (levels + 5) hgensymName hcount hm
  let held := gensymName m
  let bound := w₁.binding inner "condvar" (.sym held)
  have hknown : w₁.heap.Knows inner := hapart.knows hinner.known
  have hkept {name : String} (hne : "condvar" ≠ name) :
      bound.heap.scopes.lookup inner name = letOpened.heap.scopes.lookup inner name :=
    (World.lookup_binding_ne hknown hne inner _).trans (hapart.lookup hinner.known name)
  have hbound : bound.heap.Means inner connectiveNatives connectiveForms := by
    refine hinner.transfer ((Heap.Extends.bind w₁.heap _ _ _).knows hknown) fun name hname => hkept ?_
    rintro rfl
    exact absurd hname (by decide +kernel)
  have hfilled : Gives (levels + 11) c.template.template inner bound (c.expansion held x (y :: more))
      bound :=
    gives_expansion hbound (by decide) hx (World.lookup_binding_self hknown _ _)
      ((hkept (by decide)).trans ((World.lookup_newScope hbody.known [] _).trans hxs))
  obtain ⟨_, hempty⟩ := hbody.native .isEmpty (by decide)
  refine ⟨held, bound, ?_, generated_gensymName m, ?_⟩
  · rw [c.body_eq]
    refine .choice (hbody.form .choice (by decide)) (.isEmpty hempty (.symbol hxs rfl)) ?_
    refine .choice (hbody.form .choice (by decide)) (gives_isOne hbody hxs hk) ?_
    have hmore : (k == 1) = false := by
      refine beq_eq_false_iff_ne.mpr fun hone => ?_
      have hlength : (x :: y :: more).length = more.length + 2 := rfl
      rw [hone, hlength, Int64.toInt_one] at hk
      omega
    rw [hmore]
    exact .letOne (hbody.form .letIn (by decide)) hgiven
      (.quasiquote (hbound.form .quasiquote (by decide)) hfilled)
  · have hnew : ¬ w.heap.Knows inner := fun hk =>
      World.not_knows_newScope opened (some outer) [] ((Heap.Extends.enter w.heap _ _).knows hk)
    exact (((World.Apart.refl counter w).entered _ _).entered _ _ |>.trans hapart).binding hnew _ _

end Expansion

section ShortCircuit

variable {levels : Nat} {global scope : ScopeId} {counter : CellId} {w w' : World} {c : Connective}
  {forms : List Value} {operands : List String} {held f : String} {m v : Value} {o : Ending Value}

/-- What is held decides, or the connective goes on with the other forms. -/
theorem choice_held (hif : ∀ id note, w.heap.scopes.lookup scope "if" ≠ some (.fn id true note))
    (hheld : w.heap.scopes.lookup scope held = some v) (hv : Run.settle v = Pure.pure v)
    (h : if v.isTruthy = c.decisive then o = some (.ok v, w) else
      Evaluates (levels + 2) (c.form forms) scope w o) :
    Evaluates (levels + 2) (c.choice held forms) scope w o := by
  have hsymbol (l : Nat) : Gives (l + 1) (.sym held) scope w v w := .symbol hheld hv
  have hbranch : Evaluates (levels + 2)
      (if v.isTruthy then (c.branches (.sym held) (c.form forms)).1
        else (c.branches (.sym held) (c.form forms)).2) scope w o := by
    cases c <;> cases ht : v.isTruthy <;> simp_all [Connective.decisive, Connective.branches]
  exact .choice hif (hsymbol _) hbranch

/-- The call of the connective ends as what its definition makes of it does. -/
theorem connective_expands (h : w.heap.Defines global c.definition)
    (hscope : w.heap.Marked global scope)
    (hbody : Gives levels c.definition.body (w.scopeFor global forms) (w.openedFor global forms) m w')
    (hm : Evaluates (levels + 1) m scope w' o) : Evaluates (levels + 1) (c.form forms) scope w o := by
  obtain ⟨id, hname, hclosure⟩ := h
  have hplain : ¬ Generated c.name := by cases c <;> decide
  have hcall : w.heap.expander? (c.form forms) scope = some (c.definition.closure global, forms) := by
    cases c <;> exact Heap.expander?_of_closure ((hscope.lookup hplain).trans hname) hclosure forms
  exact .expander hcall (by cases c <;> exact hbody) hm

/-- Of two operands and more the first is held, and in the calling scope nothing has changed. -/
theorem Heap.HasConnective.holds (levels : Nat) {g : String} {fs : List String}
    (h : w.heap.HasConnective global counter c (f :: g :: fs)) (hw : w.heap.KnowsFunctions)
    (hlength : ((f :: g :: fs).length : Int) ≤ Int64.maxValue.toInt) :
    ∃ held w', Gives (levels + 11) c.definition.body
        (w.scopeFor global ((f :: g :: fs).map callOf)) (w.openedFor global ((f :: g :: fs).map callOf))
        (c.expansion held (callOf f) ((g :: fs).map callOf)) w' ∧
      Generated held ∧ w.Apart counter w' ∧ w.heap.LeavesInner w'.heap := by
  obtain ⟨n, m, hcount, hm⟩ := h.counts (by simp)
  obtain ⟨k, hk⟩ := exists_toInt_eq hlength
  have hlast : k.toInt = (callOf f :: callOf g :: fs.map callOf).length := by simpa using hk
  obtain ⟨held, w', hgiven, hgenerated, hapart⟩ :=
    gives_held levels (c := c) h.names h.gensym hcount hm rfl hlast
  refine ⟨held, w', hgiven, hgenerated, hapart, ?_⟩
  exact hgiven.leavesInner ((LeavesInner.refl hw).enter _ _) (h.names.scopeFor _).known
    fun hinner => World.not_knows_newScope w _ _ hinner.knows

/-- The first of several operands is called, and its value decides, or it is up to the others. -/
theorem shortCircuits_step {g : String} {fs : List String} (hscope : w.heap.Marked global scope)
    (hw : w.heap.KnowsFunctions) (h : w.heap.HasConnective global counter c (f :: g :: fs))
    (hname : ¬ Generated f) (hhead : SpecialForm.ofName? f = none)
    (hlength : ((f :: g :: fs).length : Int) ≤ Int64.maxValue.toInt)
    (hothers : ∀ scope w, w.heap.Marked global scope → w.heap.KnowsFunctions →
      w.heap.HasConnective global counter c (g :: fs) →
      ∃ o, Evaluates (levels + 12) (c.form ((g :: fs).map callOf)) scope w o ∧
        ShortCircuits c global counter (levels + 11) (g :: fs) w o) :
    ∃ o, Evaluates (levels + 12) (c.form ((f :: g :: fs).map callOf)) scope w o ∧
      ShortCircuits c global counter (levels + 11) (f :: g :: fs) w o := by
  obtain ⟨held, w', hgiven, hgenerated, hapart, hleaves⟩ := h.holds levels hw hlength
  have hscope' := hscope.apart hapart
  -- the operand is called in the scope of the binding, which is new
  let inner := w'.newScope (some scope) []
  let w₁ := w'.entered (some scope) []
  have hscope₁ : w₁.heap.Marked global inner := hscope'.entered
  have hapart₁ : w.Apart counter w₁ := hapart.entered _ _
  have hnew : ¬ w.heap.Knows inner := fun hk =>
    World.not_knows_newScope w' (some scope) [] (hapart.knows hk)
  have hlet : ∀ id note, w'.heap.scopes.lookup scope "let*" ≠ some (.fn id true note) := by
    rw [hscope'.lookup (by decide), hapart.lookup h.names.known]
    exact h.names.form .letIn (by decide)
  obtain ⟨o₁, hcall⟩ := Evaluates.exists (levels + 11) (callOf f) global w₁
  have hpart : Evaluates (levels + 11) (callOf f) inner w₁ o₁ := by
    refine hcall.marked hscope₁ hname hhead ?_
    rw [hapart₁.lookup h.names.known]
    exact h.operand f rfl
  by_cases hok : ∃ v w₂, o₁ = some (.ok v, w₂)
  · obtain ⟨v, w₂, rfl⟩ := hok
    have hleaves₂ : w₁.heap.LeavesInner w₂.heap :=
      hcall.leavesInner (.refl (hleaves.enter _ _).functions) hscope₁.knows_global
        (hapart₁.not_inner h.names.known h.outermost)
    have hscope₂ : w₂.heap.Marked global inner :=
      hscope₁.kept (hleaves₂.grown.knows hscope₁.knows_global) hleaves₂.same
    let w₃ := w₂.binding inner held v
    have hscope₃ : w₃.heap.Marked global inner := hscope₂.binding hgenerated inner v
    have hif (hplain : ∀ id note, w₂.heap.scopes.lookup global "if" ≠ some (.fn id true note)) :
        ∀ id note, w₃.heap.scopes.lookup inner "if" ≠ some (.fn id true note) := by
      have hne : held ≠ "if" := by
        rintro rfl
        exact absurd hgenerated (by decide)
      rw [hscope₃.lookup (by decide), World.lookup_binding_ne hscope₂.knows_global hne]
      exact hplain
    have hheld : w₃.heap.scopes.lookup inner held = some v :=
      World.lookup_binding_self hscope₂.knows held v
    obtain ⟨o, hchoice⟩ :=
      Evaluates.exists (levels + 12) (c.choice held ((g :: fs).map callOf)) inner w₃
    refine ⟨o, connective_expands h.connective hscope hgiven (.letOne hlet hpart hchoice), ?_⟩
    by_cases hv : v.isTruthy = c.decisive
    · have hends (hplain : ∀ id note, w₂.heap.scopes.lookup global "if" ≠ some (.fn id true note)) :
          o = some (.ok v, w₃) :=
        hchoice.unique (choice_held (hif hplain) hheld hcall.settled (by rw [if_pos hv]))
      exact .decides hapart₁ hcall hnew hv hends
    · have hrest (h' : w₃.heap.HasConnective global counter c (g :: fs)) :
          ShortCircuits c global counter (levels + 11) (g :: fs) w₃ o := by
        have hfunctions : w₃.heap.KnowsFunctions := fun id c hc =>
          (Heap.Extends.bind w₂.heap _ _ _).knows (hleaves₂.functions id c hc)
        obtain ⟨o', hothers', hcircuits⟩ := hothers inner w₃ hscope₃ hfunctions h'
        have hplain : ∀ id note, w₃.heap.scopes.lookup inner "if" ≠ some (.fn id true note) := by
          rw [hscope₃.lookup (by decide)]
          exact h'.names.form .choice (by decide)
        rw [hchoice.unique (choice_held hplain hheld hcall.settled (by rwa [if_neg hv]))]
        exact hcircuits
      exact .goesOn hapart₁ hcall hnew hv hrest
  · have hno : ∀ v w₂, o₁ ≠ some (.ok v, w₂) := fun v w₂ ho => hok ⟨v, w₂, ho⟩
    exact ⟨o₁, connective_expands h.connective hscope hgiven (.letOne_not_ok hlet hpart hno),
      .notOk hapart₁ hcall hno⟩

theorem shortCircuits_marked (hlevels : 11 ≤ levels) (hscope : w.heap.Marked global scope)
    (hw : w.heap.KnowsFunctions) (h : w.heap.HasConnective global counter c operands)
    (hnames : ∀ f ∈ operands, ¬ Generated f ∧ SpecialForm.ofName? f = none)
    (hlength : (operands.length : Int) ≤ Int64.maxValue.toInt) :
    ∃ o, Evaluates (levels + 1) (c.form (operands.map callOf)) scope w o ∧
      ShortCircuits c global counter levels operands w o := by
  obtain ⟨levels, rfl⟩ : ∃ l, levels = l + 11 := ⟨levels - 11, by omega⟩
  induction operands generalizing scope w with
  | nil =>
    have hbody := gives_neutral (levels + 8) (c := c) (h.names.scopeFor []) (by decide)
      (World.lookup_forms h.names.known [])
    refine ⟨_, connective_expands h.connective hscope hbody ?_,
      .neutral (.openedFor counter w global [])⟩
    cases c with
    | disjunction => exact .nil
    | conjunction => exact .bool true
  | cons f others ih =>
    obtain ⟨⟨hname, hhead⟩, hothers⟩ := List.forall_mem_cons.mp hnames
    cases others with
    | nil =>
      have hbody := gives_only (levels + 7) (c := c) (x := callOf f) (h.names.scopeFor _)
        (by decide) rfl (World.lookup_forms h.names.known _)
      have hopened := World.Apart.openedFor counter w global [callOf f]
      obtain ⟨o, hcall⟩ :=
        Evaluates.exists (levels + 12) (callOf f) global (w.openedFor global [callOf f])
      have hplain : ∀ id note, (w.openedFor global [callOf f]).heap.scopes.lookup global f ≠
          some (.fn id true note) := by
        rw [hopened.lookup h.names.known]
        exact h.operand f rfl
      have hmarked := hcall.marked (hscope.apart hopened) hname hhead hplain
      exact ⟨o, connective_expands h.connective hscope hbody hmarked, .last hopened hcall⟩
    | cons g fs =>
      refine shortCircuits_step hscope hw h hname hhead hlength fun scope w hscope hw h => ?_
      exact ih hscope hw h hothers (by simp only [List.length_cons] at hlength ⊢; omega)

/-- Both connectives short-circuit, however many operands there are, and twelve levels are enough for
that, apart from those that the calls need. The operands are names that are not generated and name no
special form. -/
theorem connective_shortCircuits (c : Connective) (hlevels : 11 ≤ levels)
    (hw : w.heap.KnowsFunctions) (h : w.heap.HasConnective global counter c operands)
    (hnames : ∀ f ∈ operands, ¬ Generated f ∧ SpecialForm.ofName? f = none)
    (hlength : (operands.length : Int) ≤ Int64.maxValue.toInt) :
    ∃ o, Evaluates (levels + 1) (c.form (operands.map callOf)) global w o ∧
      ShortCircuits c global counter levels operands w o :=
  shortCircuits_marked hlevels (.here h.names.known) hw h hnames hlength

/-- In a new global scope the connectives have their meanings. -/
theorem Heap.HasPrelude.hasConnective {heap : Heap} (h : heap.HasPrelude global) (c : Connective)
    (hplain : ∀ f ∈ operands.head?, ∀ id note, heap.scopes.lookup global f ≠ some (.fn id true note)) :
    heap.HasConnective global ⟨0⟩ c operands where
  outermost := by
    obtain ⟨s, hs, ho⟩ := h.standard.outermost
    rintro ⟨s', hs', hinner⟩
    rw [hs] at hs'
    cases hs'
    rw [ho] at hinner
    cases hinner
  names := h.unrebound.means _ _ fun form _ => h.standard.form form
  connective := by
    cases c with
    | disjunction => exact h.defines Definition.disjunction (by simp [Definition.late])
    | conjunction => exact h.defines Definition.conjunction (by simp [Definition.late])
  gensym := h.hasGensym
  counts _ := ⟨0, 1, h.counted, rfl⟩
  operand := hplain

/-- In a new global scope `and` calls `list` and then `vector`. -/
theorem connective_shortCircuits_natives :
    ∃ global w, (Session.newGlobal 1).outcome (World.start Files.empty "" 0) =
        some (.ok global, w) ∧
      w.heap.KnowsFunctions ∧ w.heap.HasConnective global ⟨0⟩ .conjunction ["list", "vector"] ∧
      ∃ o, Evaluates 200 (Connective.conjunction.form [callOf "list", callOf "vector"]) global w o ∧
        ShortCircuits .conjunction global ⟨0⟩ 199 ["list", "vector"] w o := by
  obtain ⟨global, w, hnew, -⟩ := Session.newGlobal_makes 0 Files.empty "" 0
  have hprelude := Session.newGlobal_hasPrelude hnew
  have hconnective : w.heap.HasConnective global ⟨0⟩ .conjunction ["list", "vector"] := by
    refine hprelude.hasConnective .conjunction fun f hf id note hname => ?_
    cases hf
    have hlist := hprelude.standard.native .list
    cases hlist.symm.trans hname
  have hfunctions := hprelude.hangsOff.functions
  exact ⟨global, w, hnew, hfunctions, hconnective,
    connective_shortCircuits .conjunction (by decide) hfunctions hconnective (by decide) (by decide)⟩

/-- A function that has the name of a special form. -/
def Definition.hidden : Definition :=
  ⟨false, "do", [], .int 1⟩

/-- The natives and the prelude are not all that the connectives rest on: a function with the name of a
special form is not called, and once `if` is an expander in the global scope, `or` without operands has
another value. -/
theorem connectives_rest_on_forms :
    ∃ global w, (Session.newGlobal 1).outcome (World.start Files.empty "" 0) =
        some (.ok global, w) ∧
      (∃ v w' w'', (Session.evalText 1 "(def! do (fn* () 1))" global).outcome w =
          some (.ok (some v), w') ∧
        w'.heap.Unrebound global ∧ w'.heap.Defines global Definition.hidden ∧
        Gives 200 (Connective.disjunction.form [callOf "do"]) global w' .nil w'') ∧
      ∃ v w' w'', (Session.evalText 1 "(defmacro! if (fn* (& xs) 1))" global).outcome w =
          some (.ok (some v), w') ∧
        w'.heap.Unrebound global ∧
        Gives 200 (Connective.disjunction.form []) global w' (.int 1) w'' := by
  obtain ⟨global, w, hnew, -⟩ := Session.newGlobal_makes 0 Files.empty "" 0
  have hprelude := Session.newGlobal_hasPrelude hnew
  refine ⟨global, w, hnew, ?_, ?_⟩
  · have hread : Prelude.Reads "(def! do (fn* () 1))" Definition.hidden := by
      refine read_of_tokens rfl ?_
      with_unfolding_all rfl
    obtain ⟨⟨v, hdefined⟩, hunrebound, hhidden, hforms⟩ :=
      Session.evalText_beside hprelude (by decide) hread (by decide +kernel)
    have hor := hunrebound.defines Definition.disjunction (by simp [Definition.late])
    have hmeans := hunrebound.means connectiveNatives [.choice]
      (List.forall_mem_singleton.mpr (hforms .choice (by decide)))
    have hbody := gives_only 195 (c := .disjunction) (x := callOf "do")
      (hmeans.scopeFor [callOf "do"]) (by decide) rfl (World.lookup_forms hmeans.known _)
    let opened := (w.defining global .hidden).openedFor global [callOf "do"]
    have hdo : Gives 200 (callOf "do") global opened .nil opened := by
      refine .of_done (Heap.expander?_of_lookup [] _ fun id note hname => ?_) ⟨0, fun _ _ => rfl⟩ rfl
      obtain ⟨id', hfunction, -⟩ := hhidden.entered (some global) [("xs", ofList [callOf "do"])]
      cases hfunction.symm.trans hname
    exact ⟨v, _, opened, hdefined, hunrebound, hhidden,
      connective_expands hor (.here hmeans.known) hbody hdo⟩
  · obtain ⟨⟨v, hdefined⟩, hunrebound, hchoice, hforms⟩ :=
      Session.evalText_beside hprelude (by decide) Prelude.reads_choiceOne (by decide +kernel)
    have hor := hunrebound.defines Definition.disjunction (by simp [Definition.late])
    obtain ⟨w', hbody⟩ := gives_choiceOne 197 hchoice [("xs", ofList [])] rfl _
    rw [← Connective.body_eq .disjunction] at hbody
    exact ⟨v, _, w', hdefined, hunrebound,
      connective_expands hor (.here (Heap.knows_of_lookup (hunrebound.native .add))) hbody (.int 1)⟩

end ShortCircuit

end MiniLisp
