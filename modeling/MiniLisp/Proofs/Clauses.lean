import MiniLisp.Proofs.Endings
import MiniLisp.Proofs.PreludeDefinitions

namespace MiniLisp

open Value Run

/-- The natives that `cond` calls. -/
def clauseNatives : List Native :=
  [.greater, .count, .list, .first, .nth, .throw, .cons, .rest]

/-- In the scope `cond` is what the prelude defines in the global scope, and there the names in its
definition mean what they say. -/
structure Heap.HasClauses (heap : Heap) (global scope : ScopeId) : Prop where
  names : heap.Means global clauseNatives [.choice, .quote]
  expander : ∃ id note, heap.scopes.lookup scope "cond" = some (.fn id true note) ∧
    heap.closure? id = some (Definition.cond.closure global)
  choice : ∀ id note, heap.scopes.lookup scope "if" ≠ some (.fn id true note)

/-- The call of `cond` with these forms. -/
def clauses (forms : List Value) : Value :=
  ofList (.sym "cond" :: forms)

/-- The failure that a form without a partner comes to. -/
def oddClauses : Fault :=
  ⟨.user, .str "odd number of forms to cond"⟩

/-- The choice between these clauses ends like this, as long as `cond` stays what it is. Conditions are
evaluated in the scope, one after the other, up to the first that holds or does not end well; the form
beside the one that holds is evaluated in its stead. -/
inductive Selects (global scope : ScopeId) (levels : Nat) :
    List Value → World → Ending Value → Prop
  | nothing {w} : Selects global scope levels [] w (some (.ok .nil, w.openedFor global []))
  | odd {c w} :
      Selects global scope levels [c] w (some (.error oddClauses, w.openedFor global [c]))
  | notOk {c e more w o}
      (condition : Evaluates levels c scope (w.openedFor global (c :: e :: more)) o)
      (stops : ∀ v w', o ≠ some (.ok v, w')) : Selects global scope levels (c :: e :: more) w o
  | holds {c e more w v w' o}
      (condition : Gives levels c scope (w.openedFor global (c :: e :: more)) v w')
      (truthy : v.isTruthy = true) (selected : Evaluates (levels + 1) e scope w' o) :
      Selects global scope levels (c :: e :: more) w o
  | skips {c e more w v w' o}
      (condition : Gives levels c scope (w.openedFor global (c :: e :: more)) v w')
      (falsy : v.isTruthy = false)
      (others : w'.heap.HasClauses global scope → Selects global scope levels more w' o) :
      Selects global scope levels (c :: e :: more) w o

section Expansion

variable {levels : Nat} {global scope : ScopeId} {w : World} {forms more : List Value}
  {c e note : Value} {n k : Int64}

namespace Heap.Means

theorem gives_moreThan {kept : List SpecialForm} (h : w.heap.Means scope clauseNatives kept)
    (hxs : w.heap.scopes.lookup scope "xs" = some (ofList forms)) (hk : k.toInt = forms.length)
    (n : Int64) :
    Gives (levels + 3) (Definition.moreThan n) scope w (.bool (n.toInt < forms.length)) w := by
  obtain ⟨_, hcount⟩ := h.native .count (by decide)
  obtain ⟨_, hgreater⟩ := h.native .greater (by decide)
  have hholds : Native.comparison .greater [.int k, .int n] =
      .ok (.bool (n.toInt < forms.length)) := by
    have hints : [Value.int k, .int n].mapM Native.greater.integer = .ok [k, n] := rfl
    rw [Native.comparison, hints, ← hk]
    simp [Native.holdsAlong, Native.holds]
  exact .compute .greater rfl rfl hgreater
    (.cons (.count hcount (.symbol hxs rfl) hk) (.cons (.int n) .nil)) rfl hholds rfl

end Heap.Means

namespace Heap.HasClauses

theorem means (h : w.heap.HasClauses global scope) (forms : List Value) :
    (w.openedFor global forms).heap.Means (w.scopeFor global forms) clauseNatives
      [.choice, .quote] :=
  h.names.scopeFor forms

theorem gives_moreThan (h : w.heap.HasClauses global scope) (hk : k.toInt = forms.length)
    (n : Int64) :
    Gives (levels + 3) (Definition.moreThan n) (w.scopeFor global forms)
      (w.openedFor global forms) (.bool (n.toInt < forms.length)) (w.openedFor global forms) :=
  (h.means forms).gives_moreThan (World.lookup_forms h.names.known forms) hk n

theorem gives_forms (h : w.heap.HasClauses global scope) (forms : List Value) :
    Gives (levels + 1) (.sym "xs") (w.scopeFor global forms) (w.openedFor global forms)
      (ofList forms) (w.openedFor global forms) :=
  .symbol (World.lookup_forms h.names.known forms) rfl

/-- Without forms the choice is nothing. -/
theorem gives_nothing (h : w.heap.HasClauses global scope) :
    Gives (levels + 4) Definition.cond.body (w.scopeFor global []) (w.openedFor global [])
      .nil (w.openedFor global []) :=
  .choice_nothing ((h.means []).form .choice (by decide))
    (h.gives_moreThan (k := 0) (show _ = (([] : List Value).length : Int) from rfl) 0) rfl

theorem gives_quote (h : w.heap.HasClauses global scope) (forms : List Value) (name : String) :
    Gives (levels + 1) (ofList [.sym "quote", .sym name]) (w.scopeFor global forms)
      (w.openedFor global forms) (.sym name) (w.openedFor global forms) :=
  .quote ((h.means forms).form .quote (by decide)) rfl

theorem gives_first (h : w.heap.HasClauses global scope) (hc : Run.settle c = Pure.pure c) :
    Gives (levels + 2) (ofList [.sym "first", .sym "xs"]) (w.scopeFor global (c :: more))
      (w.openedFor global (c :: more)) c (w.openedFor global (c :: more)) := by
  obtain ⟨_, hfirst⟩ := (h.means (c :: more)).native .first (by decide)
  exact .first hfirst (h.gives_forms _) hc

/-- A form without a partner is found before anything is made of it. -/
theorem evaluates_odd (h : w.heap.HasClauses global scope) (hc : Run.settle c = Pure.pure c) :
    Evaluates (levels + 5) Definition.cond.body (w.scopeFor global [c]) (w.openedFor global [c])
      (some (.error oddClauses, w.openedFor global [c])) := by
  have hm := h.means [c]
  obtain ⟨_, hlist⟩ := hm.native .list (by decide)
  obtain ⟨_, hthrow⟩ := hm.native .throw (by decide)
  refine .choice_then (hm.form .choice (by decide)) (h.gives_moreThan (k := 1) rfl 0) rfl ?_
  refine .part_error [.sym "list", ofList [.sym "quote", .sym "if"],
      ofList [.sym "first", .sym "xs"]] rfl rfl hlist (fun _ _ => Value.noConfusion)
    (.cons (.symbol hlist rfl) (.cons (h.gives_quote _ _) (.cons (h.gives_first hc) .nil))) ?_
  refine .choice (hm.form .choice (by decide)) (h.gives_moreThan (k := 1) rfl 1) ?_
  exact .compute_error .throw rfl rfl hthrow (.cons (.text _) .nil) rfl rfl

/-- From a form and its partner a choice is made, with the other clauses as what is done otherwise. -/
theorem gives_choice (levels : Nat) (h : w.heap.HasClauses global scope)
    (hc : Run.settle c = Pure.pure c) (he : Run.settle e = Pure.pure e)
    (hk : k.toInt = (c :: e :: more).length) :
    Gives (levels + 5) Definition.cond.body (w.scopeFor global (c :: e :: more))
      (w.openedFor global (c :: e :: more)) (ofList [.sym "if", c, e, clauses more])
      (w.openedFor global (c :: e :: more)) := by
  have hm := h.means (c :: e :: more)
  obtain ⟨_, hlist⟩ := hm.native .list (by decide)
  obtain ⟨_, hnth⟩ := hm.native .nth (by decide)
  obtain ⟨_, hcons⟩ := hm.native .cons (by decide)
  obtain ⟨_, hrest⟩ := hm.native .rest (by decide)
  have hpair : (1 : Int64).toInt < (c :: e :: more).length :=
    Int.ofNat_lt.mpr (Nat.succ_lt_succ (Nat.succ_pos more.length))
  have hsome : (0 : Int64).toInt < (c :: e :: more).length := Int.lt_trans (by decide) hpair
  have hsecond : Gives (levels + 4) (ofList [.sym "if", Definition.moreThan 1,
      ofList [.sym "nth", .sym "xs", .int 1],
      ofList [.sym "throw", .str "odd number of forms to cond"]])
      (w.scopeFor global (c :: e :: more)) (w.openedFor global (c :: e :: more)) e
      (w.openedFor global (c :: e :: more)) := by
    refine .choice (hm.form .choice (by decide)) (h.gives_moreThan hk 1) ?_
    rw [decide_eq_true hpair]
    exact .compute .nth rfl rfl hnth (.cons (h.gives_forms _) (.cons (.int 1) .nil)) rfl rfl he
  refine .choice_then (hm.form .choice (by decide)) (h.gives_moreThan hk 0)
    (by rw [decide_eq_true hsome]; rfl) ?_
  refine .compute .list rfl rfl hlist (.cons (h.gives_quote _ _) (.cons (h.gives_first hc)
    (.cons hsecond (.cons ?_ .nil)))) rfl rfl rfl
  exact .cons hcons (h.gives_quote _ _) (.rest hrest (.rest hrest (h.gives_forms _)))

theorem expander? (h : w.heap.HasClauses global scope) (forms : List Value) :
    w.heap.expander? (clauses forms) scope = some (Definition.cond.closure global, forms) := by
  obtain ⟨id, note, hname, hclosure⟩ := h.expander
  exact expander?_of_closure hname hclosure forms

/-- In the calling scope the choice still has its meaning after an expansion. -/
theorem choice_opened (h : w.heap.HasClauses global scope) (forms : List Value) (id : FnId)
    (note : Value) :
    (w.openedFor global forms).heap.scopes.lookup scope "if" ≠ some (.fn id true note) := by
  obtain ⟨_, _, hname, -⟩ := h.expander
  rw [World.openedFor, World.lookup_entered (Heap.knows_of_lookup hname)]
  exact h.choice id note

end Heap.HasClauses

end Expansion

variable {levels : Nat} {global scope : ScopeId} {w : World} {forms : List Value}

/-- Among clauses the first one is selected whose condition holds, however many there are. For each of
them `cond` is expanded again, in tail position, and six levels are enough for that. -/
theorem clauses_select (hlevels : 5 ≤ levels) (h : w.heap.HasClauses global scope)
    (hforms : ∀ form ∈ forms, Run.settle form = Pure.pure form)
    (hlength : (forms.length : Int) ≤ Int64.maxValue.toInt) :
    ∃ o, Evaluates (levels + 1) (clauses forms) scope w o ∧
      Selects global scope levels forms w o := by
  obtain ⟨levels, rfl⟩ : ∃ l, levels = l + 5 := ⟨levels - 5, by omega⟩
  induction forms using List.twoStepInduction generalizing w with
  | nil => exact ⟨_, .expander (h.expander? []) h.gives_nothing .nil, .nothing⟩
  | singleton c =>
    have hc := hforms c List.mem_cons_self
    exact ⟨_, .expander_error (h.expander? [c]) (h.evaluates_odd hc), .odd⟩
  | cons_cons c e more ih _ =>
    obtain ⟨hc, he, hmore⟩ : Run.settle c = Pure.pure c ∧ Run.settle e = Pure.pure e ∧
      ∀ form ∈ more, Run.settle form = Pure.pure form := by simpa using hforms
    obtain ⟨k, hk⟩ := exists_toInt_eq hlength
    have hexpanded := h.gives_choice levels hc he hk
    have hif := h.choice_opened (c :: e :: more)
    obtain ⟨o, hcondition⟩ := Evaluates.exists (levels + 5) c scope
      (w.openedFor global (c :: e :: more))
    by_cases hok : ∃ v w', o = some (.ok v, w')
    · obtain ⟨v, w', rfl⟩ := hok
      cases hv : v.isTruthy with
      | true =>
        obtain ⟨o, hselected⟩ := Evaluates.exists (levels + 5 + 1) e scope w'
        refine ⟨o, .expander (h.expander? _) hexpanded (.choice hif hcondition ?_),
          .holds hcondition hv hselected⟩
        rwa [hv, if_pos rfl]
      | false =>
        -- what the other clauses come to is known where `cond` is still there, and then it is that
        obtain ⟨o, hothers⟩ := Evaluates.exists (levels + 5 + 1) (clauses more) scope w'
        refine ⟨o, .expander (h.expander? _) hexpanded (.choice hif hcondition ?_),
          .skips hcondition hv fun h' => ?_⟩
        · rwa [hv, if_neg Bool.false_ne_true]
        · have hfewer : (more.length : Int) ≤ Int64.maxValue.toInt := by
            simp only [List.length_cons] at hlength
            omega
          obtain ⟨o', hothers', hselects⟩ := ih h' hmore hfewer
          exact hothers.unique hothers' ▸ hselects
    · have hno : ∀ v w', o ≠ some (.ok v, w') := fun v w' ho => hok ⟨v, w', ho⟩
      exact ⟨o, .expander (h.expander? _) hexpanded (.choice_not_ok hif hcondition hno),
        .notOk hcondition hno⟩

/-- Where only names of its own have been bound, `cond` has its meaning in the global scope. -/
theorem Heap.HasPrelude.hasClauses {heap : Heap} (h : heap.HasPrelude global) :
    heap.HasClauses global global where
  names := h.unrebound.means _ _ fun form _ => h.standard.form form
  expander := by
    obtain ⟨id, hname, hclosure⟩ := h.defines Definition.cond (by simp [Definition.late])
    exact ⟨id, _, hname, hclosure⟩
  choice id note := by
    have hif : heap.scopes.lookup global "if" = none := h.standard.form .choice
    simp [hif]

/-- In a new global scope the second condition is the first that holds. -/
theorem clauses_select_second :
    ∃ global w, (Session.newGlobal 1).outcome (World.start Files.empty "" 0) =
        some (.ok global, w) ∧
      w.heap.HasClauses global global ∧
      ∃ o, Evaluates 200 (clauses [.nil, .int 1, .bool true, .int 2]) global w o ∧
        Selects global global 199 [.nil, .int 1, .bool true, .int 2] w o := by
  obtain ⟨global, w, hnew, -⟩ := Session.newGlobal_makes 0 Files.empty "" 0
  have hclauses := (Session.newGlobal_hasPrelude hnew).hasClauses
  have hforms : ∀ form ∈ [Value.nil, .int 1, .bool true, .int 2],
      Run.settle form = Pure.pure form := by
    simp [Run.settle]
  exact ⟨global, w, hnew, hclauses, clauses_select (by decide) hclauses hforms (by decide)⟩

/-- An expander that makes `quote` stand for its argument. -/
def Definition.bareQuote : Definition :=
  ⟨true, "quote", ["x"], .sym "x"⟩

/-- Without a quote `cond` fails before it looks at the first of its forms. -/
theorem clauses_bareQuote (levels : Nat) (forms : List Value) (h : w.heap.Unrebound global)
    (hif : w.heap.scopes.lookup global "if" = none)
    (hquote : w.heap.Defines global Definition.bareQuote) (hne : 0 < forms.length)
    (hlength : (forms.length : Int) ≤ Int64.maxValue.toInt) :
    ∃ w', Evaluates (levels + 6) (clauses forms) global w
      (some (.error (Cause.unbound "if").fault, w')) := by
  obtain ⟨k, hk⟩ := exists_toInt_eq hlength
  obtain ⟨id, hname, hclosure⟩ := hquote
  have hknown := Heap.knows_of_lookup hname
  have hcond := h.defines Definition.cond (by simp [Definition.late])
  have hmeans :=
    (h.means clauseNatives [.choice] (List.forall_mem_singleton.mpr hif)).scopeFor forms
  obtain ⟨_, hlist⟩ := hmeans.native .list (by decide)
  have hquoted := Heap.expander?_of_closure
    ((World.lookup_beside_forms hknown forms (by decide)).trans hname) hclosure [.sym "if"]
  have hx := World.lookup_newScope (w := w.openedFor global forms)
    ((Heap.Extends.enter w.heap _ _).knows hknown) [("x", .sym "if")] "x"
  have hvoid := (World.lookup_entered hmeans.known (some global) [("x", .sym "if")] "if").trans
    ((World.lookup_beside_forms hknown forms (by decide)).trans hif)
  have hmore : (Value.bool ((0 : Int64).toInt < forms.length)).isTruthy = true := by
    rw [decide_eq_true (by simpa using hne)]
    rfl
  -- `quote` itself is expanded, and what it makes of the name is evaluated once more
  refine ⟨(w.openedFor global forms).entered (some global) [("x", .sym "if")],
    .expander_error (hcond.expander? rfl forms) ?_⟩
  refine .choice_then (hmeans.form .choice (by decide))
    (hmeans.gives_moreThan (World.lookup_forms hknown forms) hk 0) hmore ?_
  exact .part_error [.sym "list"] rfl rfl hlist (fun _ _ => Value.noConfusion)
    (.cons (.symbol hlist rfl) .nil) (.expander hquoted (.symbol hx rfl) (.unbound hvoid))

/-- Where the choice always comes to one, so does `cond`. -/
theorem clauses_choiceOne (levels : Nat)
    (hcond : w.heap.expander? (clauses forms) scope = some (Definition.cond.closure global, forms))
    (hchoice : w.heap.Defines global Definition.choiceOne) :
    ∃ w', Gives (levels + 3) (clauses forms) scope w (.int 1) w' := by
  obtain ⟨w', hbody⟩ := gives_choiceOne levels hchoice [("xs", ofList forms)] rfl _
  exact ⟨w', .expander hcond hbody (.int 1)⟩

/-- The natives and the prelude are not all that `cond` rests on: once `quote` is an expander in the
global scope, a condition that holds selects nothing, and once `if` is one there, `cond` without forms
has another value, although `if` is no expander where it is called. -/
theorem clauses_rest_on_forms :
    ∃ global w, (Session.newGlobal 1).outcome (World.start Files.empty "" 0) =
        some (.ok global, w) ∧
      (∃ v w' w'', (Session.evalText 1 "(defmacro! quote (fn* (x) x))" global).outcome w =
          some (.ok (some v), w') ∧
        w'.heap.Unrebound global ∧ w'.heap.scopes.lookup global "if" = none ∧
        Evaluates 200 (clauses [.bool true, .int 1]) global w'
          (some (.error (Cause.unbound "if").fault, w''))) ∧
      ∃ v w' w'', (Session.evalText 1 "(defmacro! if (fn* (& xs) 1))" global).outcome w =
          some (.ok (some v), w') ∧
        w'.heap.Unrebound global ∧
        Gives 200 (ofList [.sym "let*", ofList [.sym "if", .int 0], clauses []]) global w' (.int 1)
          w'' := by
  obtain ⟨global, w, hnew, -⟩ := Session.newGlobal_makes 0 Files.empty "" 0
  have hprelude := Session.newGlobal_hasPrelude hnew
  refine ⟨global, w, hnew, ?_, ?_⟩
  · have hread : Prelude.Reads "(defmacro! quote (fn* (x) x))" Definition.bareQuote := by
      refine read_of_tokens rfl ?_
      with_unfolding_all rfl
    obtain ⟨⟨v, hdefined⟩, hunrebound, hquote, hforms⟩ :=
      Session.evalText_beside hprelude (by decide) hread (by decide +kernel)
    have hif := hforms .choice (by decide)
    obtain ⟨w', hends⟩ :=
      clauses_bareQuote 194 [.bool true, .int 1] hunrebound hif hquote (by decide) (by decide)
    exact ⟨v, _, w', hdefined, hunrebound, hif, hends⟩
  · obtain ⟨⟨v, hdefined⟩, hunrebound, hchoice, hforms⟩ :=
      Session.evalText_beside hprelude (by decide) Prelude.reads_choiceOne (by decide +kernel)
    have hlet := (hunrebound.means [] [.letIn]
      (List.forall_mem_singleton.mpr (hforms .letIn (by decide)))).form .letIn List.mem_cons_self
    obtain ⟨id, hname, hclosure⟩ := hunrebound.defines Definition.cond (by simp [Definition.late])
    have hcond := Heap.expander?_of_closure
      ((World.lookup_newScope (Heap.knows_of_lookup hname) [("if", .int 0)] "cond").trans hname)
      hclosure []
    obtain ⟨w', hends⟩ := clauses_choiceOne 197 hcond (hchoice.entered _ _)
    exact ⟨v, _, w', hdefined, hunrebound, .letOne hlet (.int 0)
      ((World.binding_newScope _ _ _ _).symm ▸ hends)⟩

end MiniLisp
