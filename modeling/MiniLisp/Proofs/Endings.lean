import MiniLisp.Proofs.Arithmetic
import MiniLisp.Proofs.Layers
import MiniLisp.Proofs.StandardNames
import MiniLisp.Proofs.Transparency

namespace MiniLisp

open Value Run

variable {α β : Type}

/-- A result and the world that is left, or none. -/
abbrev Ending (α : Type) :=
  Option (Except Fault α × World)

namespace Run

/-- With enough fuel the run has this ending. -/
def Ultimately (run : Nat → Run α) (w : World) (ending : Ending α) : Prop :=
  ∃ least, ∀ fuel, least ≤ fuel → (run fuel).outcome w = ending

/-- What has ended with some fuel ends in the same way with more of it. -/
def Rising (run : Nat → Run α) : Prop :=
  ∀ fuel fuel', fuel ≤ fuel' → (run fuel).Below (run fuel')

namespace Ultimately

variable {run run' : Nat → Run α} {w w' : World} {o o' : Ending α}

theorem unique (h : Ultimately run w o) (h' : Ultimately run w o') : o = o' := by
  obtain ⟨least, h⟩ := h
  obtain ⟨least', h'⟩ := h'
  exact (h _ (Nat.le_max_left least least')).symm.trans (h' _ (Nat.le_max_right least least'))

theorem exists_of_rising (h : Rising run) (w : World) : ∃ o, Ultimately run w o := by
  by_cases hends : ∃ fuel ending, (run fuel).outcome w = some ending
  · obtain ⟨fuel, ending, hend⟩ := hends
    exact ⟨some ending, fuel, fun more hmore => h fuel more hmore w ending hend⟩
  · refine ⟨none, 0, fun fuel _ => Option.eq_none_iff_forall_ne_some.mpr fun ending hend => ?_⟩
    exact hends ⟨fuel, ending, hend⟩

theorem congr (h : Ultimately run' w' o) (least : Nat)
    (hsame : ∀ fuel, least ≤ fuel → (run fuel).outcome w = (run' fuel).outcome w') :
    Ultimately run w o := by
  obtain ⟨least', h⟩ := h
  refine ⟨max least least', fun fuel hfuel => ?_⟩
  rw [hsame fuel (by omega), h fuel (by omega)]

/-- Without any fuel no run need be looked at. -/
theorem congr_succ (h : Ultimately run' w' o) (least : Nat)
    (hsame : ∀ fuel, least ≤ fuel → (run (fuel + 1)).outcome w = (run' (fuel + 1)).outcome w') :
    Ultimately run w o := by
  refine h.congr (least + 1) fun fuel hfuel => ?_
  obtain ⟨fuel, rfl⟩ : ∃ n, fuel = n + 1 := ⟨fuel - 1, by omega⟩
  exact hsame fuel (Nat.le_of_succ_le_succ hfuel)

theorem of_succ (least : Nat) (h : ∀ fuel, least ≤ fuel → (run (fuel + 1)).outcome w = o) :
    Ultimately run w o := by
  refine ⟨least + 1, fun fuel hfuel => ?_⟩
  obtain ⟨fuel, rfl⟩ : ∃ n, fuel = n + 1 := ⟨fuel - 1, by omega⟩
  exact h fuel (Nat.le_of_succ_le_succ hfuel)

/-- A run that has a little less fuel at hand ends in the same way. -/
theorem between (h : Ultimately run w o) (hlow : ∀ fuel, (run fuel).Below (run' (fuel + 1)))
    (hhigh : ∀ fuel, (run' fuel).Below (run fuel)) : Ultimately run' w o := by
  obtain ⟨least, h⟩ := h
  refine of_succ least fun fuel hfuel => ?_
  cases o with
  | some ending => exact hlow fuel w ending (h fuel hfuel)
  | none =>
    refine Option.eq_none_iff_forall_ne_some.mpr fun ending hend => ?_
    have hends := hhigh (fuel + 1) w ending hend
    rw [h (fuel + 1) (by omega)] at hends
    cases hends

theorem bind (next : Nat → α → Run β) {a : α} {o : Ending β}
    (h : Ultimately run w (some (.ok a, w'))) (hn : Ultimately (fun fuel => next fuel a) w' o) :
    Ultimately (fun fuel => run fuel >>= next fuel) w o := by
  obtain ⟨least, h⟩ := h
  exact hn.congr least fun fuel hfuel => outcome_bind_ok _ (h fuel hfuel)

/-- Nothing follows a run that does not end well. -/
theorem bind_not_ok (next : Nat → α → Run α) (h : Ultimately run w o)
    (hno : ∀ a w', o ≠ some (.ok a, w')) :
    Ultimately (fun fuel => run fuel >>= next fuel) w o := by
  obtain ⟨least, h⟩ := h
  refine ⟨least, fun fuel hfuel => ?_⟩
  rw [outcome_bind, h fuel hfuel]
  match o with
  | none => rfl
  | some (.error fault, w') => rfl
  | some (.ok a, w') => exact absurd rfl (hno a w')

end Ultimately
end Run

/-- The world with a new scope. -/
def World.entered (w : World) (outer : Option ScopeId) (bindings : Entries String Value) : World :=
  { w with heap := (w.heap.enter outer bindings).1 }

/-- The scope that is the new one there. -/
def World.newScope (w : World) (outer : Option ScopeId) (bindings : Entries String Value) : ScopeId :=
  (w.heap.enter outer bindings).2

/-- The world with a name bound in the scope. -/
def World.binding (w : World) (scope : ScopeId) (name : String) (v : Value) : World :=
  { w with heap := w.heap.bind scope name v }

theorem Heap.knows_of_lookup {heap : Heap} {scope : ScopeId} {name : String} {v : Value}
    (h : heap.scopes.lookup scope name = some v) : heap.Knows scope := by
  rw [Scopes.lookup] at h
  split at h
  · cases h
  · next s hs => exact Heap.knows_iff.mpr ⟨s, hs⟩

section Scopes

variable {w : World} {scope outer : ScopeId} {bindings : Entries String Value} {name : String}

/-- The new scope adds its names to those of the scope around it. -/
theorem World.lookup_newScope (hk : w.heap.Knows outer) (bindings : Entries String Value)
    (name : String) :
    (w.entered (some outer) bindings).heap.scopes.lookup (w.newScope (some outer) bindings) name =
      (Entries.find? name bindings).or (w.heap.scopes.lookup outer name) := by
  rw [entered, newScope, Scopes.lookup_of_get? (Heap.get?_enter_new hk bindings), Option.bind_some,
    Heap.lookup_enter_known hk]

theorem World.lookup_entered (hk : w.heap.Knows scope) (outer : Option ScopeId)
    (bindings : Entries String Value) (name : String) :
    (w.entered outer bindings).heap.scopes.lookup scope name = w.heap.scopes.lookup scope name :=
  Heap.lookup_enter_known hk outer bindings name

/-- A new scope is not one of those that were there. -/
theorem World.not_knows_newScope (w : World) (outer : Option ScopeId)
    (bindings : Entries String Value) : ¬ w.heap.Knows (w.newScope outer bindings) := by
  exact Heap.not_knows_entered w.heap outer bindings

/-- A name that is bound in a new scope might have been there from the beginning. -/
theorem World.binding_newScope (w : World) (outer : Option ScopeId) (name : String) (v : Value) :
    (w.entered outer []).binding (w.newScope outer []) name v = w.entered outer [(name, v)] := by
  rw [binding, entered, newScope, Heap.bind_enter]
  rfl

theorem World.lookup_binding_self (hk : w.heap.Knows scope) (name : String) (v : Value) :
    (w.binding scope name v).heap.scopes.lookup scope name = some v := by
  obtain ⟨s, hs⟩ := Heap.knows_iff.mp hk
  have hbound : (w.binding scope name v).heap.scopes.get? scope = _ :=
    Heap.get?_bind w.heap scope scope name v
  rw [if_pos rfl, hs, Option.map_some] at hbound
  rw [Scopes.lookup_of_get? hbound, Entries.find?_insert_self, Option.some_or]

/-- A name stands for the same in two heaps if each scope of the first lies inside the same one in the
second and binds the name to the same. -/
theorem Heap.lookup_congr {heap heap' : Heap} {name : String}
    (h : ∀ scope s, heap.scopes.get? scope = some s → ∃ s', heap'.scopes.get? scope = some s' ∧
      s'.outer = s.outer ∧ Entries.find? name s'.bindings = Entries.find? name s.bindings)
    (hk : heap.Knows scope) : heap'.scopes.lookup scope name = heap.scopes.lookup scope name := by
  fun_induction Scopes.lookup heap.scopes scope name with
  | case1 scope hs =>
    obtain ⟨s, hsome⟩ := knows_iff.mp hk
    rw [hs] at hsome
    cases hsome
  | case2 scope s hs v hv =>
    obtain ⟨s', hs', -, hfind⟩ := h scope s hs
    rw [Scopes.lookup_of_get? hs', hfind, hv, Option.some_or]
  | case3 scope s hs hv ho =>
    obtain ⟨s', hs', houter, hfind⟩ := h scope s hs
    rw [Scopes.lookup_of_get? hs', hfind, hv, houter, ho]
    rfl
  | case4 scope s hs hv o ho hlt ih =>
    obtain ⟨s', hs', houter, hfind⟩ := h scope s hs
    have hknown : heap.Knows o := Nat.lt_trans hlt hk
    rw [Scopes.lookup_of_get? hs', hfind, hv, houter, ho, Option.none_or, Option.bind_some, ih hknown]

/-- Binding a name changes nothing for other names. -/
theorem World.lookup_binding_ne (hk : w.heap.Knows scope) {other : String} (hne : name ≠ other)
    (inner : ScopeId) (v : Value) :
    (w.binding inner name v).heap.scopes.lookup scope other = w.heap.scopes.lookup scope other := by
  refine Heap.lookup_congr (fun id s hs => ?_) hk
  have hbound : (w.binding inner name v).heap.scopes.get? id = _ := Heap.get?_bind w.heap inner id name v
  rw [hs] at hbound
  split at hbound
  · exact ⟨_, hbound, rfl, Entries.find?_insert_ne hne v s.bindings⟩
  · exact ⟨_, hbound, rfl, rfl⟩

/-- In the scope the names of these natives and special forms mean what they say. -/
structure Heap.Means (heap : Heap) (scope : ScopeId) (natives : List Native)
    (forms : List SpecialForm) : Prop where
  known : heap.Knows scope
  native : ∀ op ∈ natives, ∃ note, heap.scopes.lookup scope op.name = some (.native op note)
  form : ∀ form ∈ forms, ∀ id note, heap.scopes.lookup scope form.name ≠ some (.fn id true note)

namespace Heap.Means

variable {natives : List Native} {forms : List SpecialForm}

/-- The meanings carry over to where the standard names are bound to the same. -/
theorem transfer {heap heap' : Heap} {scope' : ScopeId} (h : heap.Means scope natives forms)
    (hk : heap'.Knows scope')
    (hsame : ∀ name ∈ standardNames,
      heap'.scopes.lookup scope' name = heap.scopes.lookup scope name) :
    heap'.Means scope' natives forms where
  known := hk
  native op hop := by
    rw [hsame _ (mem_standardNames_native op)]
    exact h.native op hop
  form form hform := by
    rw [hsame _ (mem_standardNames_form form)]
    exact h.form form hform

/-- Names of its own in a new scope hide none of the standard names. -/
theorem newScope (h : w.heap.Means outer natives forms)
    (hfree : ∀ name ∈ standardNames, Entries.find? name bindings = none) :
    (w.entered (some outer) bindings).heap.Means (w.newScope (some outer) bindings) natives
      forms := by
  refine h.transfer ?_ fun name hname => ?_
  · rw [Knows, World.newScope, index_enter, World.entered, scopeCount_enter]
    exact Nat.lt_succ_self _
  · rw [World.lookup_newScope h.known, hfree name hname, Option.none_or]

/-- A binding of a name of its own leaves the standard names alone. -/
theorem binding (h : w.heap.Means scope natives forms) (hname : name ∉ standardNames)
    (inner : ScopeId) (v : Value) : (w.binding inner name v).heap.Means scope natives forms := by
  refine h.transfer ((Extends.bind w.heap _ _ _).knows h.known) fun other hother => ?_
  have hne : name ≠ other := fun heq => hname (heq ▸ hother)
  exact World.lookup_binding_ne h.known hne inner v

end Heap.Means

theorem Entries.find?_single_none {names : List String} (h : name ∉ names) (v : Value) :
    ∀ other ∈ names, Entries.find? other [(name, v)] = none := by
  intro other hother
  have hne : name ≠ other := fun heq => h (heq ▸ hother)
  simp [Entries.find?, hne]

end Scopes

/-- With so many levels left, the evaluation of the form has this ending. -/
def Evaluates (levels : Nat) (form : Value) (scope : ScopeId) (w : World) (o : Ending Value) : Prop :=
  Ultimately (fun fuel => evalWithin fuel levels form scope) w o

/-- With so many levels left, the form has this value, and its evaluation leaves this world. -/
abbrev Gives (levels : Nat) (form : Value) (scope : ScopeId) (w : World) (v : Value) (w' : World) :
    Prop :=
  Evaluates levels form scope w (some (.ok v, w'))

/-- The forms have these values, one after the other. -/
inductive GivesAll (levels : Nat) (scope : ScopeId) :
    List Value → World → List Value → World → Prop
  | nil {w} : GivesAll levels scope [] w [] w
  | cons {form v forms vs w w' w''} (first : Gives levels form scope w v w')
      (rest : GivesAll levels scope forms w' vs w'') :
      GivesAll levels scope (form :: forms) w (v :: vs) w''

theorem GivesAll.inOrder {levels : Nat} {scope : ScopeId} {forms vs : List Value} {w w' : World}
    (h : GivesAll levels scope forms w vs w') :
    ∃ least, ∀ fuel, least ≤ fuel →
      InOrder (evalWithin fuel levels · scope) forms w vs w' := by
  induction h with
  | nil => exact ⟨0, fun _ _ => .nil⟩
  | cons first rest ih =>
    obtain ⟨least, hfirst⟩ := first
    obtain ⟨least', hrest⟩ := ih
    exact ⟨max least least', fun fuel hfuel =>
      .cons (hfirst fuel (by omega)) (hrest fuel (by omega))⟩

/-- The names of a row are bound to the values of the forms beside them, one after the other. -/
inductive BindsAll (levels : Nat) (scope : ScopeId) : List Value → World → World → Prop
  | nil {w} : BindsAll levels scope [] w w
  | cons {name form v row w w' w''} (first : Gives levels form scope w v w')
      (rest : BindsAll levels scope row (w'.binding scope name v) w'') :
      BindsAll levels scope (.sym name :: form :: row) w w''

theorem BindsAll.binds {levels : Nat} {scope : ScopeId} {row : List Value} {w w' : World}
    (h : BindsAll levels scope row w w') :
    ∃ least, ∀ fuel, least ≤ fuel → Binds (evalWithin fuel levels) scope row w w' := by
  induction h with
  | nil => exact ⟨0, fun _ _ => .nil⟩
  | cons first rest ih =>
    obtain ⟨least, hfirst⟩ := first
    obtain ⟨least', hrest⟩ := ih
    exact ⟨max least least', fun fuel hfuel =>
      .cons (hfirst fuel (by omega)) (hrest fuel (by omega))⟩

theorem Binds.bindAll {ev : Evaluator} {scope : ScopeId} {row : List Value} {w w' : World}
    (h : Binds ev scope row w w') :
    (SpecialForm.bindAll ev scope row).outcome w = some (.ok (), w') := by
  induction h with
  | nil => rfl
  | cons head tail ih =>
    rw [SpecialForm.bindAll, outcome_bind_ok _ head, outcome_bind_ok _ (outcome_bindName _ _ _ _), ih]

theorem evalSteps_succ (ev : Evaluator) (fuel steps : Nat) (form : Value) (scope : ScopeId) :
    evalSteps ev fuel (steps + 1) form scope =
      (evalStep ev fuel form scope >>= Step.finish (evalSteps ev fuel steps)) := by
  rw [evalSteps]
  rfl

theorem evalWithin_settled (fuel levels : Nat) : (evalWithin fuel levels).Settled := by
  intro form scope
  cases levels with
  | zero => rfl
  | succ levels => exact evalSteps_settle form

theorem Evaluator.Settled.value {ev : Evaluator} (hev : ev.Settled) {form v : Value}
    {scope : ScopeId} {w w' : World} (h : (ev form scope).outcome w = some (.ok v, w')) :
    settle v = pure v := by
  cases v with
  | error kind payload =>
    have hsettle := (congrArg (Run.outcome · w) (hev form scope)).symm.trans
      (outcome_bind_ok settle h)
    exact absurd (h.symm.trans hsettle) (by simp [settle])
  | _ => rfl

/-- What ends well does not end with an error value. -/
theorem Evaluates.settled {levels : Nat} {form v : Value} {scope : ScopeId} {w w' : World}
    (h : Gives levels form scope w v w') : Run.settle v = Pure.pure v := by
  obtain ⟨least, h⟩ := h
  exact (evalWithin_settled least levels).value (h least (Nat.le_refl least))

namespace Evaluates

variable {levels : Nat} {form : Value} {scope inner : ScopeId} {w w' w'' : World} {o : Ending Value}
  {name : String} {note v : Value}

theorem rising (levels : Nat) (form : Value) (scope : ScopeId) :
    Rising fun fuel => evalWithin fuel levels form scope :=
  fun _ _ hfuel => evalWithin_below hfuel levels form scope

theorem «exists» (levels : Nat) (form : Value) (scope : ScopeId) (w : World) :
    ∃ o, Evaluates levels form scope w o :=
  Ultimately.exists_of_rising (rising levels form scope) w

/-- A form in tail position takes the rest of the steps. -/
theorem tail (hnext : Evaluates (levels + 1) form inner w o) :
    Ultimately (fun fuel => evalSteps (evalWithin fuel levels) fuel (fuel - 1) form inner) w o := by
  refine Ultimately.between hnext (fun fuel => ?_) fun fuel => ?_
  · exact evalSteps_below (evalWithin_below (Nat.le_succ fuel) levels) (Nat.le_succ fuel)
      (Nat.le_refl fuel) form inner
  · exact evalSteps_below (fun _ _ => .refl _) (Nat.le_refl fuel) (Nat.sub_le fuel 1) form inner

section Steps

variable {next : Value}

theorem step_outcome (hsame : w.heap.expander? form scope = none) {fuel : Nat} (hfuel : 1 ≤ fuel) :
    (evalWithin fuel (levels + 1) form scope).outcome w =
      (evalExpanded (evalWithin fuel levels) fuel form scope >>=
        Step.finish (evalSteps (evalWithin fuel levels) fuel (fuel - 1))).outcome w := by
  obtain ⟨fuel, rfl⟩ : ∃ n, fuel = n + 1 := ⟨fuel - 1, by omega⟩
  rw [evalWithin, evalSteps_succ, outcome_bind, evalStep_same hsame, ← outcome_bind]
  rfl

/-- After its first step a form ends as the form in tail position does. -/
theorem of_tail (hsame : w.heap.expander? form scope = none)
    (h : Ultimately (fun fuel => evalExpanded (evalWithin fuel levels) fuel form scope) w
      (some (.ok (.tail next inner), w')))
    (hnext : Evaluates (levels + 1) next inner w' o) : Evaluates (levels + 1) form scope w o := by
  have hsteps := h.bind
    (fun fuel => Step.finish (evalSteps (evalWithin fuel levels) fuel (fuel - 1))) hnext.tail
  exact hsteps.congr 1 fun _ hfuel => step_outcome hsame hfuel

/-- A form ends with the value of its only step. -/
theorem of_done (hsame : w.heap.expander? form scope = none)
    (h : Ultimately (fun fuel => evalExpanded (evalWithin fuel levels) fuel form scope) w
      (some (.ok (.done v), w'))) (hv : Run.settle v = Pure.pure v) :
    Gives (levels + 1) form scope w v w' := by
  obtain ⟨least, h⟩ := h
  refine ⟨max least 1, fun fuel hfuel => ?_⟩
  rw [step_outcome hsame (by omega), outcome_bind_ok _ (h fuel (by omega)), Step.finish.eq_def]
  simp only [hv]
  rfl

/-- A form whose first step begins with the evaluation of a part ends like the part, unless that ends
well. -/
theorem of_not_ok (hsame : w.heap.expander? form scope = none) {x : Value} {w₁ : World}
    {f : Nat → Value → Run Step} (hpart : Evaluates levels x inner w₁ o)
    (hno : ∀ v w', o ≠ some (.ok v, w'))
    (h : ∀ fuel, (evalExpanded (evalWithin fuel levels) fuel form scope).outcome w =
      (evalWithin fuel levels x inner >>= f fuel).outcome w₁) :
    Evaluates (levels + 1) form scope w o := by
  refine (hpart.bind_not_ok (fun fuel v => f fuel v >>=
    Step.finish (evalSteps (evalWithin fuel levels) fuel (fuel - 1))) hno).congr 1 fun fuel hfuel => ?_
  rw [step_outcome hsame hfuel, outcome_bind, h, ← outcome_bind, bind_assoc]

end Steps

theorem symbol (h : w.heap.scopes.lookup scope name = some v) (hv : Run.settle v = Pure.pure v) :
    Gives (levels + 1) (.sym name) scope w v w :=
  .of_succ 0 fun _ _ => (layered_evalWithin _).symbol h hv

theorem unbound (h : w.heap.scopes.lookup scope name = none) :
    Evaluates (levels + 1) (.sym name) scope w (some (.error (Cause.unbound name).fault, w)) :=
  .of_succ 0 fun _ _ => evalSteps_unbound h

theorem int (n : Int64) : Gives (levels + 1) (.int n) scope w (.int n) w :=
  of_done rfl ⟨0, fun _ _ => rfl⟩ rfl

theorem text (s : String) : Gives (levels + 1) (.str s) scope w (.str s) w :=
  of_done rfl ⟨0, fun _ _ => rfl⟩ rfl

theorem nil : Gives (levels + 1) .nil scope w .nil w :=
  of_done rfl ⟨0, fun _ _ => rfl⟩ rfl

theorem bool (b : Bool) : Gives (levels + 1) (.bool b) scope w (.bool b) w :=
  of_done rfl ⟨0, fun _ _ => rfl⟩ rfl

section Forms

variable {condition yes no x body : Value}

theorem quote (hquote : ∀ id note, w.heap.scopes.lookup scope "quote" ≠ some (.fn id true note))
    (hv : Run.settle v = Pure.pure v) :
    Gives (levels + 1) (ofList [.sym "quote", v]) scope w v w :=
  of_done (Heap.expander?_of_lookup _ _ hquote) ⟨0, fun _ _ => rfl⟩ hv

/-- A template is evaluated as the form that it becomes. -/
theorem quasiquote
    (hquasi : ∀ id note, w.heap.scopes.lookup scope "quasiquote" ≠ some (.fn id true note))
    (h : Evaluates (levels + 1) x.template scope w o) :
    Evaluates (levels + 1) (ofList [.sym "quasiquote", x]) scope w o :=
  of_tail (Heap.expander?_of_lookup _ _ hquasi) ⟨0, fun _ _ => rfl⟩ h

theorem newFunction (hfn : ∀ id note, w.heap.scopes.lookup scope "fn*" ≠ some (.fn id true note))
    {params : Value} {names : List String} (hparams : SpecialForm.params? params = some names) :
    Gives (levels + 1) (ofList [.sym "fn*", params, body]) scope w
      (.fn (w.heap.newClosure ⟨names, body, scope⟩).2 false .nil)
      { w with heap := (w.heap.newClosure ⟨names, body, scope⟩).1 } := by
  refine of_done (Heap.expander?_of_lookup _ _ hfn) ⟨0, fun fuel _ => ?_⟩ rfl
  exact runFunction_made hparams body scope w

/-- A choice goes on with the branch that its condition selects. -/
theorem choice (hif : ∀ id note, w.heap.scopes.lookup scope "if" ≠ some (.fn id true note))
    (hcondition : Gives levels condition scope w v w')
    (hbranch : Evaluates (levels + 1) (if v.isTruthy then yes else no) scope w' o) :
    Evaluates (levels + 1) (ofList [.sym "if", condition, yes, no]) scope w o := by
  refine of_tail (Heap.expander?_of_lookup _ _ hif) (hcondition.bind _ ⟨0, fun _ _ => ?_⟩) hbranch
  cases v.isTruthy with
  | true => rfl
  | false => rfl

/-- A choice without a second branch goes on with the first one where its condition holds. -/
theorem choice_then (hif : ∀ id note, w.heap.scopes.lookup scope "if" ≠ some (.fn id true note))
    (hcondition : Gives levels condition scope w v w') (hv : v.isTruthy = true)
    (hyes : Evaluates (levels + 1) yes scope w' o) :
    Evaluates (levels + 1) (ofList [.sym "if", condition, yes]) scope w o := by
  refine of_tail (Heap.expander?_of_lookup _ _ hif) (hcondition.bind _ ⟨0, fun _ _ => ?_⟩) hyes
  rw [hv]
  rfl

/-- A choice with a condition that does not end well ends like it. -/
theorem choice_not_ok (hif : ∀ id note, w.heap.scopes.lookup scope "if" ≠ some (.fn id true note))
    (hcondition : Evaluates levels condition scope w o) (hno : ∀ v w', o ≠ some (.ok v, w')) :
    Evaluates (levels + 1) (ofList [.sym "if", condition, yes, no]) scope w o := by
  exact of_not_ok (Heap.expander?_of_lookup _ _ hif) hcondition hno fun _ => rfl

/-- Without a second branch there is nothing where the condition does not hold. -/
theorem choice_nothing (hif : ∀ id note, w.heap.scopes.lookup scope "if" ≠ some (.fn id true note))
    (hcondition : Gives levels condition scope w v w') (hv : v.isTruthy = false) :
    Gives (levels + 1) (ofList [.sym "if", condition, yes]) scope w .nil w' := by
  refine of_done (Heap.expander?_of_lookup _ _ hif) (hcondition.bind _ ⟨0, fun _ _ => ?_⟩) rfl
  rw [hv]
  rfl

theorem letOne_outcome (ev : Evaluator) (fuel : Nat) :
    (evalExpanded ev fuel (ofList [.sym "let*", ofList [.sym name, x], body]) scope).outcome w =
      (ev x (w.newScope (some scope) []) >>= fun v => do
        Run.bind (w.newScope (some scope) []) name v
        return Step.tail body (w.newScope (some scope) [])).outcome (w.entered (some scope) []) := by
  have heven : ¬ [Value.sym name, x].length % 2 = 1 := by simp
  change (SpecialForm.runLetIn ev scope [ofList [.sym name, x], body]).outcome w = _
  rw [SpecialForm.runLetIn_pair, ofList, elements?]
  simp only [heven, if_false]
  rw [outcome_bind_ok _ (outcome_enter _ _ _), SpecialForm.bindAll, bind_assoc]
  rfl

/-- The body of a single binding goes on in the new scope that has it. -/
theorem letOne (hlet : ∀ id note, w.heap.scopes.lookup scope "let*" ≠ some (.fn id true note))
    (hx : Gives levels x (w.newScope (some scope) []) (w.entered (some scope) []) v w')
    (hbody : Evaluates (levels + 1) body (w.newScope (some scope) [])
      (w'.binding (w.newScope (some scope) []) name v) o) :
    Evaluates (levels + 1) (ofList [.sym "let*", ofList [.sym name, x], body]) scope w o := by
  refine of_tail (Heap.expander?_of_lookup _ _ hlet) ?_ hbody
  refine (hx.bind (fun _ v => do
    Run.bind (w.newScope (some scope) []) name v
    return Step.tail body (w.newScope (some scope) [])) ⟨0, fun _ _ => rfl⟩).congr 0 fun fuel _ => ?_
  exact letOne_outcome _ fuel

theorem letOne_not_ok (hlet : ∀ id note, w.heap.scopes.lookup scope "let*" ≠ some (.fn id true note))
    (hx : Evaluates levels x (w.newScope (some scope) []) (w.entered (some scope) []) o)
    (hno : ∀ v w', o ≠ some (.ok v, w')) :
    Evaluates (levels + 1) (ofList [.sym "let*", ofList [.sym name, x], body]) scope w o :=
  of_not_ok (Heap.expander?_of_lookup _ _ hlet) hx hno fun fuel => letOne_outcome _ fuel

/-- The body of several bindings goes on in the new scope that has them all. -/
theorem letAll (hlet : ∀ id note, w.heap.scopes.lookup scope "let*" ≠ some (.fn id true note))
    {row : List Value} (heven : row.length % 2 = 0)
    (hrow : BindsAll levels (w.newScope (some scope) []) row (w.entered (some scope) []) w')
    (hbody : Evaluates (levels + 1) body (w.newScope (some scope) []) w' o) :
    Evaluates (levels + 1) (ofList [.sym "let*", ofList row, body]) scope w o := by
  obtain ⟨least, hrow⟩ := hrow.binds
  refine of_tail (Heap.expander?_of_lookup _ _ hlet) ⟨least, fun fuel hfuel => ?_⟩ hbody
  have hodd : ¬ row.length % 2 = 1 := by omega
  change (SpecialForm.runLetIn _ scope [ofList row, body]).outcome w = _
  rw [SpecialForm.runLetIn_pair, ofList, elements?]
  simp only [hodd, if_false]
  exact (outcome_bind_ok _ (outcome_enter _ _ _)).trans (outcome_bind_ok _ (hrow fuel hfuel).bindAll)

end Forms

section Calls

variable {forms args : List Value} {c : Closure} {id : FnId}

/-- The call of a function goes on with its body, in a new scope inside the one of the function. -/
theorem function (hhead : SpecialForm.ofName? name = none)
    (hname : w.heap.scopes.lookup scope name = some (.fn id false note))
    (hargs : GivesAll levels scope (.sym name :: forms) w (.fn id false note :: args) w')
    (hclosure : w'.heap.closure? id = some c)
    (hbody : Evaluates (levels + 1) c.body (w'.newScope (some c.scope) (bindParams [] c.params args))
      (w'.entered (some c.scope) (bindParams [] c.params args)) o) :
    Evaluates (levels + 1) (ofList (.sym name :: forms)) scope w o := by
  obtain ⟨least, hparts⟩ := hargs.inOrder
  exact hbody.tail.congr_succ least fun fuel hfuel =>
    evalSteps_function hhead hname hclosure (hparts _ (Nat.le_succ_of_le hfuel))

/-- The call of a native ends as the native does. -/
theorem native (op : Native) (hhead : SpecialForm.ofName? op.name = none)
    (hname : w.heap.scopes.lookup scope op.name = some (.native op note))
    (hargs : GivesAll (levels + 1) scope forms w args w')
    (hcall : Ultimately (fun fuel => Native.call (evalWithin fuel (levels + 1)) fuel op args scope) w'
      (some (.ok v, w''))) (hv : Run.settle v = Pure.pure v) :
    Gives (levels + 2) (ofList (.sym op.name :: forms)) scope w v w'' := by
  obtain ⟨least, hparts⟩ := (GivesAll.cons (symbol hname rfl) hargs).inOrder
  obtain ⟨least', hcall⟩ := hcall
  refine .of_succ (max least least') fun fuel hfuel => ?_
  refine (evalSteps_native hhead hname (hparts _ (by omega))).trans ?_
  rw [outcome_bind_ok _ (hcall _ (by omega)), hv]
  rfl

/-- The call of a native that only computes. -/
theorem compute (op : Native) {f : List Value → Except Fault Value} (hf : op.behaviour = .compute f)
    (hhead : SpecialForm.ofName? op.name = none)
    (hname : w.heap.scopes.lookup scope op.name = some (.native op note))
    (hargs : GivesAll (levels + 1) scope forms w args w')
    (hcheck : op.arity.check op.name args.length = .ok ()) (hresult : f args = .ok v)
    (hv : Run.settle v = Pure.pure v) :
    Gives (levels + 2) (ofList (.sym op.name :: forms)) scope w v w' := by
  refine native op hhead hname hargs (.of_succ 0 fun fuel _ => ?_) hv
  rw [Native.compute_outcome hf hcheck, hresult]

/-- The call of a native fails if the native does. -/
theorem native_error (op : Native) {fault : Fault} (hhead : SpecialForm.ofName? op.name = none)
    (hname : w.heap.scopes.lookup scope op.name = some (.native op note))
    (hargs : GivesAll (levels + 1) scope forms w args w')
    (hcall : Ultimately (fun fuel => Native.call (evalWithin fuel (levels + 1)) fuel op args scope) w'
      (some (.error fault, w''))) :
    Evaluates (levels + 2) (ofList (.sym op.name :: forms)) scope w (some (.error fault, w'')) := by
  obtain ⟨least, hparts⟩ := (GivesAll.cons (symbol hname rfl) hargs).inOrder
  obtain ⟨least', hcall⟩ := hcall
  refine .of_succ (max least least') fun fuel hfuel => ?_
  refine (evalSteps_native hhead hname (hparts _ (by omega))).trans ?_
  exact outcome_bind_error _ (hcall _ (by omega))

theorem compute_error (op : Native) {f : List Value → Except Fault Value} {fault : Fault}
    (hf : op.behaviour = .compute f) (hhead : SpecialForm.ofName? op.name = none)
    (hname : w.heap.scopes.lookup scope op.name = some (.native op note))
    (hargs : GivesAll (levels + 1) scope forms w args w')
    (hcheck : op.arity.check op.name args.length = .ok ()) (hresult : f args = .error fault) :
    Evaluates (levels + 2) (ofList (.sym op.name :: forms)) scope w (some (.error fault, w')) := by
  refine native_error op hhead hname hargs (.of_succ 0 fun fuel _ => ?_)
  rw [Native.compute_outcome hf hcheck, hresult]

/-- A call fails if one of its parts does. -/
theorem part_error (before : List Value) {rest vs : List Value} {x head : Value} {fault : Fault}
    (hsplit : .sym name :: forms = before ++ x :: rest) (hhead : SpecialForm.ofName? name = none)
    (hname : w.heap.scopes.lookup scope name = some head) (hfn : ∀ id note, head ≠ .fn id true note)
    (hbefore : GivesAll levels scope before w vs w')
    (hx : Evaluates levels x scope w' (some (.error fault, w''))) :
    Evaluates (levels + 1) (ofList (.sym name :: forms)) scope w (some (.error fault, w'')) := by
  obtain ⟨least, hparts⟩ := hbefore.inOrder
  obtain ⟨least', hx⟩ := hx
  refine .of_succ (max least least') fun fuel hfuel => ?_
  exact evalSteps_part_error before hsplit hhead hname hfn (hparts _ (by omega)) (hx _ (by omega))

/-- The call of an expander ends as what it expands to does. -/
theorem expander {m : Value} (hfound : w.heap.expander? form scope = some (c, args))
    (hcall : Gives levels c.body (w.newScope (some c.scope) (bindParams [] c.params args))
      (w.entered (some c.scope) (bindParams [] c.params args)) m w')
    (hm : Evaluates (levels + 1) m scope w' o) : Evaluates (levels + 1) form scope w o := by
  -- what is left of the expansion has a little less fuel than the evaluation of its result has
  have hrest : Ultimately (fun fuel => expand (evalWithin fuel levels) (fuel - 1) m scope >>= fun m =>
      evalWithin fuel (levels + 1) m scope) w' o := by
    refine Ultimately.between hm (fun fuel => ?_) fun fuel => ?_
    · rw [evalWithin_expand]
      exact .bind (expand_below (evalWithin_below (Nat.le_succ fuel) levels) (Nat.le_refl fuel) m scope)
        fun m => evalWithin_below (Nat.le_succ fuel) (levels + 1) m scope
    · rw [evalWithin_expand fuel levels m]
      exact .bind (expand_below (fun _ _ => .refl _) (Nat.sub_le fuel 1) m scope) fun _ => .refl _
  obtain ⟨least, hcall⟩ := hcall
  refine hrest.congr_succ least fun fuel hfuel => ?_
  have hends : (c.call (evalWithin (fuel + 1) levels) args).outcome w = _ :=
    (Closure.call_eval c args).trans (hcall (fuel + 1) (by omega))
  rw [evalWithin_expand, outcome_bind, expand_once hfound, outcome_bind_ok _ hends, ← outcome_bind]
  rfl

/-- The call of an expander fails if the expander does. -/
theorem expander_error {fault : Fault} (hfound : w.heap.expander? form scope = some (c, args))
    (hcall : Evaluates levels c.body (w.newScope (some c.scope) (bindParams [] c.params args))
      (w.entered (some c.scope) (bindParams [] c.params args)) (some (.error fault, w'))) :
    Evaluates (levels + 1) form scope w (some (.error fault, w')) := by
  obtain ⟨least, hcall⟩ := hcall
  refine .of_succ least fun fuel hfuel => ?_
  have hends : (c.call (evalWithin (fuel + 1) levels) args).outcome w = _ :=
    (Closure.call_eval c args).trans (hcall (fuel + 1) (by omega))
  change (evalWithin (fuel + 1) (levels + 1) form scope).outcome w = _
  rw [evalWithin_expand]
  exact outcome_bind_error _ ((expand_once hfound).trans (outcome_bind_error _ hends))

end Calls

section Lists

variable {items others : List Value} {x y : Value} {k : Int64}

/-- How many elements there are. -/
theorem count (hname : w.heap.scopes.lookup scope "count" = some (.native .count note))
    (hx : Gives (levels + 1) x scope w (ofList items) w') (hk : k.toInt = items.length) :
    Gives (levels + 2) (ofList [.sym "count", x]) scope w (.int k) w' := by
  have hcount : Native.runCount [ofList items] = .ok (.int k) := by
    change (do return Value.int (← Native.exact .count items.length)) = _
    rw [Native.exact, integer?_eq_some_iff.mpr hk]
    rfl
  exact compute .count rfl rfl hname (.cons hx .nil) rfl hcount rfl

theorem first (hname : w.heap.scopes.lookup scope "first" = some (.native .first note))
    (hx : Gives (levels + 1) x scope w (ofList (v :: items)) w') (hv : Run.settle v = Pure.pure v) :
    Gives (levels + 2) (ofList [.sym "first", x]) scope w v w' :=
  compute .first rfl rfl hname (.cons hx .nil) rfl rfl hv

theorem rest (hname : w.heap.scopes.lookup scope "rest" = some (.native .rest note))
    (hx : Gives (levels + 1) x scope w (ofList items) w') :
    Gives (levels + 2) (ofList [.sym "rest", x]) scope w (ofList items.tail) w' :=
  compute .rest rfl rfl hname (.cons hx .nil) rfl rfl rfl

theorem cons (hname : w.heap.scopes.lookup scope "cons" = some (.native .cons note))
    (hx : Gives (levels + 1) x scope w v w') (hy : Gives (levels + 1) y scope w' (ofList items) w'') :
    Gives (levels + 2) (ofList [.sym "cons", x, y]) scope w (ofList (v :: items)) w'' :=
  compute .cons rfl rfl hname (.cons hx (.cons hy .nil)) rfl rfl rfl

theorem concat (hname : w.heap.scopes.lookup scope "concat" = some (.native .concat note))
    (hx : Gives (levels + 1) x scope w (ofList items) w')
    (hy : Gives (levels + 1) y scope w' (ofList others) w'') :
    Gives (levels + 2) (ofList [.sym "concat", x, y]) scope w (ofList (items ++ others)) w'' := by
  have hconcat : Native.runConcat [ofList items, ofList others] = .ok (ofList (items ++ others)) := by
    change Except.ok (ofList [items, others].flatten) = _
    simp
  exact compute .concat rfl rfl hname (.cons hx (.cons hy .nil)) rfl hconcat rfl

/-- Whether there are none. -/
theorem isEmpty (hname : w.heap.scopes.lookup scope "empty?" = some (.native .isEmpty note))
    (hx : Gives (levels + 1) x scope w (ofList items) w') :
    Gives (levels + 2) (ofList [.sym "empty?", x]) scope w (.bool items.isEmpty) w' :=
  compute .isEmpty rfl rfl hname (.cons hx .nil) rfl rfl rfl

end Lists
end Evaluates
end MiniLisp
