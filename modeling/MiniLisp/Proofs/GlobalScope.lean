import MiniLisp.Proofs.ScopeChain
import MiniLisp.Proofs.Watched

namespace MiniLisp

open Value Run

/-- The names with which the prelude makes its definitions. -/
def definitionNames : List String :=
  ["def!", "defmacro!", "fn*"]

/-- The names that no definition of the prelude binds. -/
def reservedNames : List String :=
  ["atom", "cons", "concat"] ++ definitionNames

/-- An outermost scope in a clean heap, in which definitions can be made and templates mean what they
say. -/
structure Heap.Global (heap : Heap) (scope : ScopeId) : Prop where
  clean : heap.Clean
  joins : heap.NoJoinExpander
  frame : ∃ s, heap.scopes.get? scope = some s ∧ s.outer = none ∧
    Entries.find? "atom" s.bindings = some (.native .atom .nil) ∧
    ∀ name ∈ definitionNames, Entries.find? name s.bindings = none

theorem Scopes.lookup_outermost {scopes : Scopes} {id : ScopeId} {s : Scope}
    (hs : scopes.get? id = some s) (ho : s.outer = none) (name : String) :
    scopes.lookup id name = Entries.find? name s.bindings := by
  rw [lookup_of_get? hs, ho, Option.bind_none, Option.or_none]

namespace Heap.Global

variable {heap : Heap} {scope : ScopeId}

theorem lookup_atom (h : heap.Global scope) :
    heap.scopes.lookup scope "atom" = some (.native .atom .nil) := by
  obtain ⟨s, hs, ho, hatom, -⟩ := h.frame
  rw [Scopes.lookup_outermost hs ho, hatom]

theorem lookup_definition (h : heap.Global scope) {name : String} (hn : name ∈ definitionNames) :
    heap.scopes.lookup scope name = none := by
  obtain ⟨s, hs, ho, -, hnone⟩ := h.frame
  rw [Scopes.lookup_outermost hs ho, hnone name hn]

theorem bind (h : heap.Global scope) {name : String} (hn : name ∉ reservedNames) {v : Value}
    (hv : v.Clean) : (heap.bind scope name v).Global scope where
  clean := h.clean.bind scope name hv
  joins := by
    simp only [reservedNames, List.mem_append, List.mem_cons, not_or] at hn
    exact h.joins.bind scope ⟨hn.1.2.1, hn.1.2.2.1⟩ v
  frame := by
    obtain ⟨s, hs, ho, hatom, hnone⟩ := h.frame
    simp only [reservedNames, List.mem_append, List.mem_cons, not_or] at hn
    refine ⟨{ s with bindings := Entries.insert name v s.bindings }, ?_, ho, ?_, ?_⟩
    · have hget : heap.scopes.all[scope.index]? = some s := hs
      simp [Heap.bind, Scopes.set, Scopes.get?, Array.getElem?_modify, hget]
    · rw [Entries.find?_insert_ne hn.1.1, hatom]
    · intro name' hname'
      have hne : name ≠ name' := fun heq => hn.2 (heq ▸ hname')
      rw [Entries.find?_insert_ne hne, hnone name' hname']

theorem newCell (h : heap.Global scope) {v : Value} (hv : v.Clean) :
    (heap.newCell v).1.Global scope :=
  ⟨h.clean.newCell hv, h.joins, h.frame⟩

theorem newClosure (h : heap.Global scope) {c : Closure} (hc : c.body.Clean) :
    (heap.newClosure c).1.Global scope :=
  ⟨h.clean.newClosure hc, h.joins, h.frame⟩

end Heap.Global

/-- In the scope these names stand for what they stood for, and no function has changed. -/
structure Heap.Retains (scope : ScopeId) (names : List String) (before after : Heap) : Prop where
  names : ∀ name ∈ names, after.scopes.lookup scope name = before.scopes.lookup scope name
  closures : ∀ id c, before.closure? id = some c → after.closure? id = some c

namespace Heap.Retains

variable {scope : ScopeId} {names : List String} {heap heap' heap'' : Heap}

theorem refl : heap.Retains scope names heap :=
  ⟨fun _ _ => rfl, fun _ _ h => h⟩

theorem trans (h : heap.Retains scope names heap') (h' : heap'.Retains scope names heap'') :
    heap.Retains scope names heap'' :=
  ⟨fun name hn => (h'.names name hn).trans (h.names name hn),
    fun id c hc => h'.closures id c (h.closures id c hc)⟩

theorem newClosure (c : Closure) : heap.Retains scope names (heap.newClosure c).1 := by
  refine ⟨fun _ _ => rfl, fun id c' hc => ?_⟩
  have hlt : id.index < heap.closures.size := (Array.getElem?_eq_some_iff.mp hc).1
  exact (Array.getElem?_push_lt hlt).trans (Array.getElem?_eq_getElem hlt ▸ hc)

theorem bind (hg : heap.Global scope) {name : String} (hn : name ∉ names) (v : Value) :
    heap.Retains scope names (heap.bind scope name v) := by
  refine ⟨fun other hother => ?_, fun _ _ h => h⟩
  obtain ⟨s, hs, ho, -⟩ := hg.frame
  have hne : name ≠ other := fun heq => hn (heq ▸ hother)
  have hs' : (heap.bind scope name v).scopes.get? scope =
      some { s with bindings := Entries.insert name v s.bindings } := by
    rw [Heap.get?_bind, if_pos rfl, hs]
    rfl
  rw [Scopes.lookup_outermost hs' ho, Scopes.lookup_outermost hs ho, Entries.find?_insert_ne hne]

theorem mono {fewer : List String} (h : heap.Retains scope names heap')
    (hf : ∀ name ∈ fewer, name ∈ names) : heap.Retains scope fewer heap' :=
  ⟨fun name hn => h.names name (hf name hn), h.closures⟩

end Heap.Retains

/-- From any world with this global scope the run ends well: its result has the property, the scope is
still a global one, and the names that are kept stand for what they stood for. The files stay. -/
def Run.Makes {α : Type} (scope : ScopeId) (kept : List String) (property : α → Prop)
    (run : Run α) : Prop :=
  ∀ w, w.heap.Global scope → ∃ x w', run.outcome w = some (.ok x, w') ∧ property x ∧
    w'.heap.Global scope ∧ w.heap.Retains scope kept w'.heap ∧ w'.files = w.files

namespace Run.Makes

variable {α β : Type} {scope : ScopeId} {kept : List String} {P : α → Prop} {Q : β → Prop}

theorem pure {x : α} (h : P x) : Makes scope kept P (Pure.pure x : Run α) :=
  fun w hw => ⟨x, w, rfl, h, hw, .refl, rfl⟩

theorem bind {run : Run α} {next : α → Run β} (h : Makes scope kept P run)
    (hn : ∀ x, P x → Makes scope kept Q (next x)) : Makes scope kept Q (run >>= next) := by
  intro w hw
  obtain ⟨x, w₁, hx, hp, hw₁, hk₁, hf₁⟩ := h w hw
  obtain ⟨y, w₂, hy, hq, hw₂, hk₂, hf₂⟩ := hn x hp w₁ hw₁
  exact ⟨y, w₂, (outcome_bind_ok next hx).trans hy, hq, hw₂, hk₁.trans hk₂, hf₂.trans hf₁⟩

theorem attempt {run : Run α} (h : Makes scope kept P run) :
    Makes scope kept (fun _ => True) (Run.attempt run) := by
  intro w hw
  obtain ⟨x, w', hx, -, hw', hk⟩ := h w hw
  exact ⟨.ok x, w', by rw [outcome_attempt, hx]; rfl, trivial, hw', hk⟩

theorem query {f : Heap → α} (h : ∀ heap : Heap, heap.Global scope → P (f heap)) :
    Makes scope kept P (Run.query f) :=
  fun w hw => ⟨f w.heap, w, rfl, h w.heap hw, hw, .refl, rfl⟩

theorem newClosure {c : Closure} (hc : c.body.Clean) :
    Makes scope kept (fun _ => True) (Run.allocate fun heap => heap.newClosure c) :=
  fun _ hw => ⟨_, _, rfl, trivial, hw.newClosure hc, .newClosure c, rfl⟩

theorem bindName {name : String} (hn : name ∉ reservedNames) (hk : name ∉ kept) {v : Value}
    (hv : v.Clean) : Makes scope kept (fun _ => True) (Run.bind scope name v) :=
  fun _ hw => ⟨_, _, rfl, trivial, hw.bind hn hv, .bind hw hk v, rfl⟩

theorem mono {run : Run α} {fewer : List String} (h : Makes scope kept P run)
    (hf : ∀ name ∈ fewer, name ∈ kept) : Makes scope fewer P run := by
  intro w hw
  obtain ⟨x, w', hx, hp, hw', hk, hfiles⟩ := h w hw
  exact ⟨x, w', hx, hp, hw', hk.mono hf, hfiles⟩

theorem settle {v : Value} (h : v.Clean) : Makes scope kept Clean (Run.settle v) := by
  cases v with
  | error kind payload => exact absurd h not_clean_error
  | _ => exact pure h

end Run.Makes

section Definitions

variable {ev : Evaluator} {fuel steps : Nat} {scope : ScopeId} {kept : List String}

/-- The result of a single step is the result of the evaluation. -/
theorem evalSteps_makes {name : String} {args : List Value}
    (hn : name ∈ "atom" :: definitionNames)
    (h : (evalExpanded ev fuel (ofList (.sym name :: args)) scope).Makes scope kept
      fun step => ∃ v, step = .done v ∧ v.Clean) :
    (evalSteps ev fuel (steps + 1) (ofList (.sym name :: args)) scope).Makes scope kept
      Clean := by
  intro w hw
  have hsame : w.heap.expander? (ofList (.sym name :: args)) scope = none := by
    refine Heap.expander?_of_lookup args .nil fun id note hl => ?_
    rcases List.mem_cons.mp hn with rfl | hn
    · rw [hw.lookup_atom] at hl
      cases hl
    · rw [hw.lookup_definition hn] at hl
      cases hl
  obtain ⟨step, w₁, hstep, ⟨v, rfl, hv⟩, hw₁, hk₁, hf₁⟩ := h w hw
  obtain ⟨v', w₂, hv', hclean, hw₂, hk₂, hf₂⟩ := Makes.settle hv w₁ hw₁
  exact ⟨v', w₂, (evalSteps_done ((evalStep_same hsame).trans hstep)).trans hv', hclean, hw₂,
    hk₁.trans hk₂, hf₂.trans hf₁⟩

theorem function_makes {params body : Value} {names : List String}
    (hp : SpecialForm.params? params = some names) (hb : body.Clean) :
    (evalSteps ev fuel (steps + 1) (ofList [.sym "fn*", params, body]) scope).Makes scope kept
      Clean := by
  refine evalSteps_makes (by decide) ?_
  change (SpecialForm.runFunction scope [params, body]).Makes scope kept _
  simp only [SpecialForm.runFunction, hp]
  refine .bind (.newClosure hb) fun id _ => ?_
  exact .pure ⟨_, rfl, .fn .nil⟩

theorem toExpander_makes {v : Value} (h : v.Clean) :
    (SpecialForm.toExpander v).Makes scope kept Clean := by
  unfold SpecialForm.toExpander
  split
  · next id expander note =>
    refine .bind (.query (P := fun c? => ∀ c, c? = some c → c.body.Clean)
      fun heap hheap c hc => hheap.clean.closure hc) fun c? hc => ?_
    cases c? with
    | none => exact .pure h
    | some c =>
      refine .bind (.newClosure (hc c rfl)) fun id _ => ?_
      exact .pure (.fn (clean_fn.mp h))
  · exact .pure h

theorem definition_makes {head name : String} {expr : Value}
    (hh : head = "def!" ∨ head = "defmacro!") (hn : name ∉ reservedNames) (hk : name ∉ kept)
    (hx : (ev expr scope).Makes scope kept Clean) :
    (evalSteps ev fuel (steps + 1) (ofList [.sym head, .sym name, expr]) scope).Makes scope kept
      Clean := by
  have hrun : ∀ form : SpecialForm, (form.runDefine ev scope [.sym name, expr]).Makes scope kept
      fun step => ∃ v, step = .done v ∧ v.Clean := by
    intro form
    rw [SpecialForm.runDefine_symbol]
    refine .bind (P := Clean) (.bind hx fun v hv => ?_) fun v hv => ?_
    · by_cases hform : form = .defineExpander
      · simp only [hform, if_true]
        exact toExpander_makes hv
      · simp only [hform, if_false]
        exact .pure hv
    · exact .bind (.bindName hn hk hv) fun _ _ => .pure ⟨v, rfl, hv⟩
  rcases hh with rfl | rfl
  · exact evalSteps_makes (by decide) (hrun .define)
  · exact evalSteps_makes (by decide) (hrun .defineExpander)

theorem atom_makes (n : Int64) (levels : Nat) :
    (evalWithin (fuel + 1) (levels + 2) (ofList [.sym "atom", .int n]) scope).Makes scope kept
      Clean := by
  refine evalSteps_makes (by decide) ?_
  intro w hw
  have hhead : (evalSteps (evalWithin (fuel + 1) levels) (fuel + 1) (fuel + 1) (.sym "atom")
      scope).outcome w = some (.ok (.native .atom .nil), w) := evalSteps_symbol hw.lookup_atom
  have hparts : InOrder (evalWithin (fuel + 1) (levels + 1) · scope) [.sym "atom", .int n] w
      [.native .atom .nil, .int n] w := .cons hhead (.cons rfl .nil)
  rw [ofList, evalExpanded_call _ (List.cons_ne_nil _ _) rfl, evalCall_native hparts]
  exact ⟨_, _, rfl, ⟨_, rfl, .atom .nil⟩, hw.newCell (.int n),
    ⟨fun _ _ => rfl, fun _ _ h => h⟩, rfl⟩

end Definitions
end MiniLisp
