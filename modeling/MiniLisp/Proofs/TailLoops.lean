import MiniLisp.Proofs.Arithmetic
import MiniLisp.Proofs.Definitions
import MiniLisp.Proofs.Layers
import MiniLisp.Proofs.StandardNames

namespace MiniLisp

open Value Run

/-- Functions that call themselves or one another in tail position. -/
inductive TailLoop where
  /-- Adds up all numbers down to zero. -/
  | sum
  /-- These two take turns. -/
  | foo | bar
  | countDown
  deriving DecidableEq

namespace TailLoop

def name : TailLoop → String
  | sum => "sum2"
  | foo => "foo"
  | bar => "bar"
  | countDown => "count-down"

def params : TailLoop → List String
  | sum => ["n", "acc"]
  | foo | bar | countDown => ["n"]

def oneLess : Value :=
  ofList [.sym "-", .sym "n", .int 1]

def isZero (name : String) : Value :=
  ofList [.sym "=", .sym name, .int 0]

def body : TailLoop → Value
  | sum => ofList [.sym "if", isZero "n", .sym "acc",
      ofList [.sym "sum2", oneLess, ofList [.sym "+", .sym "n", .sym "acc"]]]
  | foo => ofList [.sym "if", isZero "n", .int 0, ofList [.sym "bar", oneLess]]
  | bar => ofList [.sym "if", isZero "n", .int 0, ofList [.sym "foo", oneLess]]
  | countDown => ofList [.sym "let*", ofList [.sym "m", oneLess],
      ofList [.sym "do", ofList [.sym "if", isZero "m", .kw "done",
        ofList [.sym "count-down", .sym "m"]]]]

/-- The text that defines the loop. -/
def source : TailLoop → String
  | sum => "(def! sum2 (fn* (n acc) (if (= n 0) acc (sum2 (- n 1) (+ n acc)))))"
  | foo => "(def! foo (fn* (n) (if (= n 0) 0 (bar (- n 1)))))"
  | bar => "(def! bar (fn* (n) (if (= n 0) 0 (foo (- n 1)))))"
  | countDown =>
    "(def! count-down (fn* (n) (let* (m (- n 1)) (do (if (= m 0) :done (count-down m))))))"

/-- What the loops look up outside of their own scopes. -/
def names : List String :=
  ["=", "-", "+", "if", "let*", "do", "sum2", "foo", "bar", "count-down"]

theorem name_mem (loop : TailLoop) : loop.name ∈ names := by
  cases loop <;> decide

end TailLoop

/-- An outermost scope in which the loops are defined, on top of the arithmetic and the special forms
that they are made of. -/
structure Heap.HasLoops (heap : Heap) (global : ScopeId) : Prop where
  outermost : ∃ s, heap.scopes.get? global = some s ∧ s.outer = none
  native : ∀ op ∈ [Native.equal, .sub, .add],
    ∃ note, heap.scopes.lookup global op.name = some (.native op note)
  form : ∀ form ∈ [SpecialForm.choice, .letIn, .sequence],
    ∀ id note, heap.scopes.lookup global form.name ≠ some (.fn id true note)
  loop : ∀ loop : TailLoop, ∃ id note,
    heap.scopes.lookup global loop.name = some (.fn id false note) ∧
      heap.closure? id = some ⟨loop.params, loop.body, global⟩

/-- A scope that adds these bindings to those of the global scope, and hides nothing that the loops
look up there. -/
structure Heap.LoopScope (heap : Heap) (global scope : ScopeId) (bindings : Entries String Value) :
    Prop where
  loops : heap.HasLoops global
  known : heap.Knows scope
  lookup : ∀ name, heap.scopes.lookup scope name =
    (Entries.find? name bindings).or (heap.scopes.lookup global name)
  free : ∀ name ∈ TailLoop.names, Entries.find? name bindings = none

namespace Heap

variable {heap : Heap} {global scope : ScopeId} {bindings new : Entries String Value}

theorem HasLoops.knows (h : heap.HasLoops global) : heap.Knows global := by
  obtain ⟨s, hs, -⟩ := h.outermost
  exact knows_iff.mpr ⟨s, hs⟩

theorem HasLoops.loopScope (h : heap.HasLoops global) : heap.LoopScope global global [] where
  loops := h
  known := h.knows
  lookup _ := rfl
  free _ _ := rfl

theorem HasLoops.enter (h : heap.HasLoops global) (outer : Option ScopeId)
    (new : Entries String Value) : (heap.enter outer new).1.HasLoops global := by
  have hsame := lookup_enter_known h.knows outer new
  obtain ⟨s, hs, ho⟩ := h.outermost
  refine ⟨⟨s, (get?_enter_known h.knows outer new).trans hs, ho⟩, ?_, ?_, ?_⟩
  · intro op hop
    rw [hsame]
    exact h.native op hop
  · intro form hform
    rw [hsame]
    exact h.form form hform
  · intro loop
    rw [hsame]
    exact h.loop loop

/-- A scope entered inside another one sees the bindings of both. -/
theorem LoopScope.enter (h : heap.LoopScope global scope bindings)
    (hnew : ∀ name ∈ TailLoop.names, Entries.find? name new = none) :
    (heap.enter (some scope) new).1.LoopScope global (heap.enter (some scope) new).2
      (new ++ bindings) where
  loops := h.loops.enter _ _
  known := by
    rw [Knows, index_enter, scopeCount_enter]
    exact Nat.lt_succ_self _
  lookup name := by
    rw [Scopes.lookup_of_get? (get?_enter_new h.known new), Option.bind_some,
      lookup_enter_known h.known, lookup_enter_known h.loops.knows, h.lookup, Entries.find?_append,
      Option.or_assoc]
  free name hname := by
    rw [Entries.find?_append, hnew name hname, Option.none_or, h.free name hname]

theorem LoopScope.lookup_global (h : heap.LoopScope global scope bindings) {name : String}
    (hname : name ∈ TailLoop.names) :
    heap.scopes.lookup scope name = heap.scopes.lookup global name := by
  rw [h.lookup, h.free name hname, Option.none_or]

theorem LoopScope.lookup_own (h : heap.LoopScope global scope bindings) {name : String} {v : Value}
    (hname : Entries.find? name bindings = some v) : heap.scopes.lookup scope name = some v := by
  rw [h.lookup, hname, Option.some_or]

theorem LoopScope.lookup_native (h : heap.LoopScope global scope bindings) (op : Native)
    (hop : op ∈ [Native.equal, .sub, .add]) :
    ∃ note, heap.scopes.lookup scope op.name = some (.native op note) := by
  have hname : op.name ∈ TailLoop.names := by
    revert hop
    cases op <;> decide
  rw [h.lookup_global hname]
  exact h.loops.native op hop

theorem LoopScope.lookup_form (h : heap.LoopScope global scope bindings) (form : SpecialForm)
    (hform : form ∈ [SpecialForm.choice, .letIn, .sequence]) :
    ∀ id note, heap.scopes.lookup scope form.name ≠ some (.fn id true note) := by
  have hname : form.name ∈ TailLoop.names := by
    revert hform
    cases form <;> decide
  rw [h.lookup_global hname]
  exact h.loops.form form hform

end Heap

/-- A single binding: the body goes on in a scope that has it. -/
theorem evalStep_letOne {ev : Evaluator} {fuel : Nat} {scope : ScopeId} {w : World} {name : String}
    {x body v : Value}
    (hlet : ∀ id note, w.heap.scopes.lookup scope "let*" ≠ some (.fn id true note))
    (hx : (ev x (w.heap.enter (some scope) []).2).outcome
        { w with heap := (w.heap.enter (some scope) []).1 } =
      some (.ok v, { w with heap := (w.heap.enter (some scope) []).1 })) :
    (evalStep ev fuel (ofList [.sym "let*", ofList [.sym name, x], body]) scope).outcome w =
      some (.ok (.tail body (w.heap.enter (some scope) [(name, v)]).2),
        { w with heap := (w.heap.enter (some scope) [(name, v)]).1 }) := by
  have hsame : w.heap.expander? (ofList [.sym "let*", ofList [.sym name, x], body]) scope = none :=
    Heap.expander?_of_lookup _ _ hlet
  have hbind : (SpecialForm.bindAll ev (w.heap.enter (some scope) []).2 [.sym name, x]).outcome
      { w with heap := (w.heap.enter (some scope) []).1 } =
        some (.ok (), { w with heap := (w.heap.enter (some scope) [(name, v)]).1 }) := by
    rw [SpecialForm.bindAll, outcome_bind_ok _ hx, outcome_bind_ok _ (outcome_bindName _ _ _ _),
      Heap.bind_enter]
    rfl
  rw [evalStep_same hsame]
  change (SpecialForm.runLetIn ev scope [ofList [.sym name, x], body]).outcome w = _
  have helements : (ofList [.sym name, x]).elements? = some [.sym name, x] := rfl
  have heven : ¬ [Value.sym name, x].length % 2 = 1 := by simp
  rw [SpecialForm.runLetIn_pair, helements]
  simp only [heven, if_false]
  rw [outcome_bind_ok _ (outcome_enter _ _ _), outcome_bind_ok _ hbind]
  rfl

namespace Heap.LoopScope

variable {E : Nat → Evaluator} {fuel levels : Nat} {w : World} {global scope : ScopeId}
  {bindings : Entries String Value} {n m a b : Int64}

theorem isZero (h : w.heap.LoopScope global scope bindings) (hE : Layered (fuel + 1) E) {name : String}
    (hname : Entries.find? name bindings = some (.int n)) :
    (E (levels + 2) (TailLoop.isZero name) scope).outcome w =
      some (.ok (.bool (decide (n.toInt = 0))), w) := by
  obtain ⟨_, hequal⟩ := h.lookup_native .equal (by decide)
  have hargs : InOrder (E (levels + 1) · scope) [.sym name, .int 0] w [.int n, .int 0] w :=
    .cons (hE.symbol (h.lookup_own hname) rfl) (.cons (hE.int 0 scope) .nil)
  have hzero : (0 == n) = decide (n.toInt = 0) := by
    rw [Bool.eq_iff_iff, beq_iff_eq, decide_eq_true_eq, eq_comm, ← Int64.toInt_inj, Int64.toInt_zero]
  rw [← hzero]
  exact (hE.native rfl hequal hargs).trans (outcome_bind_ok _ (equal_outcome n 0))

theorem oneLess (h : w.heap.LoopScope global scope bindings) (hE : Layered (fuel + 1) E)
    (hn : Entries.find? "n" bindings = some (.int n)) (hm : m.toInt = n.toInt - 1) :
    (E (levels + 2) TailLoop.oneLess scope).outcome w = some (.ok (.int m), w) := by
  obtain ⟨_, hsub⟩ := h.lookup_native .sub (by decide)
  have hargs : InOrder (E (levels + 1) · scope) [.sym "n", .int 1] w [.int n, .int 1] w :=
    .cons (hE.symbol (h.lookup_own hn) rfl) (.cons (hE.int 1 scope) .nil)
  have hcall : (Native.call (E (levels + 1)) (fuel + 1) .sub [.int n, .int 1] scope).outcome w =
      some (.ok (.int m), w) := by
    rw [sub_outcome, Native.exact, Int64.toInt_one, integer?_eq_some_iff.mpr hm]
    rfl
  exact (hE.native rfl hsub hargs).trans (outcome_bind_ok _ hcall)

/-- A choice about zero goes on with one of its branches in the same scope. -/
theorem choose (h : w.heap.LoopScope global scope bindings) (hE : Layered (fuel + 1) E) {name : String}
    (hname : Entries.find? name bindings = some (.int n)) (yes no : Value) (steps : Nat) :
    (evalSteps (E (levels + 2)) (fuel + 1) (steps + 1)
      (ofList [.sym "if", TailLoop.isZero name, yes, no]) scope).outcome w =
      (evalSteps (E (levels + 2)) (fuel + 1) steps (if n.toInt = 0 then yes else no)
        scope).outcome w := by
  have htruthy : (Value.bool (decide (n.toInt = 0))).isTruthy = decide (n.toInt = 0) := by
    cases decide (n.toInt = 0) <;> rfl
  have hchoice : (evalStep (E (levels + 2)) (fuel + 1)
      (ofList [.sym "if", TailLoop.isZero name, yes, no]) scope).outcome w = _ :=
    evalStep_choice (h.lookup_form .choice (by decide)) (h.isZero hE hname)
  rw [evalSteps_tail hchoice, htruthy]
  simp only [decide_eq_true_eq]

/-- A loop that is called goes on with its body, in a scope of its own inside the global one. -/
theorem call (h : w.heap.LoopScope global scope bindings) (hE : Layered (fuel + 1) E) (loop : TailLoop)
    {forms args : List Value} (hargs : InOrder (E (levels + 1) · scope) forms w args w)
    (hfree : ∀ name ∈ TailLoop.names, Entries.find? name (bindParams [] loop.params args) = none) :
    ∃ scope' w', w'.heap.LoopScope global scope' (bindParams [] loop.params args) ∧
      ∀ steps, (evalSteps (E (levels + 1)) (fuel + 1) (steps + 1) (ofList (.sym loop.name :: forms))
        scope).outcome w =
        (evalSteps (E (levels + 1)) (fuel + 1) steps loop.body scope').outcome w' := by
  obtain ⟨id, note, hname, hclosure⟩ := h.loops.loop loop
  rw [← h.lookup_global loop.name_mem] at hname
  have hparts : InOrder (E (levels + 1) · scope) (.sym loop.name :: forms) w
      (.fn id false note :: args) w := .cons (hE.symbol hname rfl) hargs
  have hhead : SpecialForm.ofName? loop.name = none := by
    cases loop <;> rfl
  have hscope := h.loops.loopScope.enter hfree
  rw [List.append_nil] at hscope
  exact ⟨_, _, hscope, fun steps => evalSteps_function hhead hname hclosure hparts⟩

end Heap.LoopScope

/-- What a summand and a sum so far are bound to. -/
def summing (n a : Int64) : Entries String Value :=
  [("acc", .int a), ("n", .int n)]

theorem summing_free (n a : Int64) : ∀ name ∈ TailLoop.names,
    Entries.find? name (summing n a) = none := by
  simp [TailLoop.names, summing, Entries.find?]

theorem bindParams_sum (n a : Int64) :
    bindParams [] TailLoop.sum.params [.int n, .int a] = summing n a := by
  with_unfolding_all rfl

/-- What a number to count down from is bound to. -/
def counting (n : Int64) : Entries String Value :=
  [("n", .int n)]

theorem counting_free (n : Int64) : ∀ name ∈ TailLoop.names,
    Entries.find? name (counting n) = none := by
  simp [TailLoop.names, counting, Entries.find?]

section Turns

variable {E : Nat → Evaluator} {fuel levels : Nat} {w : World} {global scope : ScopeId}
  {n m a b : Int64}

/-- What is added up in a turn is exact or overflows. -/
theorem summed_outcome (h : w.heap.LoopScope global scope (summing n a)) (hE : Layered (fuel + 1) E) :
    (E (levels + 2) (ofList [.sym "+", .sym "n", .sym "acc"]) scope).outcome w =
      some ((Native.exact .add (n.toInt + a.toInt)).map .int, w) := by
  obtain ⟨_, hadd⟩ := h.lookup_native .add (by decide)
  have hargs : InOrder (E (levels + 1) · scope) [.sym "n", .sym "acc"] w [.int n, .int a] w :=
    .cons (hE.symbol (h.lookup_own rfl) rfl) (.cons (hE.symbol (h.lookup_own rfl) rfl) .nil)
  refine (hE.native rfl hadd hargs).trans ?_
  rw [outcome_bind, add_outcome]
  cases Native.exact .add (n.toInt + a.toInt) <;> rfl

/-- A turn of the sum: the next summand is one less, and this one is added to the sum so far. -/
theorem sum_turn (h : w.heap.LoopScope global scope (summing n a)) (hE : Layered (fuel + 1) E)
    (hn : n.toInt ≠ 0) (hm : m.toInt = n.toInt - 1) (hb : b.toInt = n.toInt + a.toInt) :
    ∃ scope' w', w'.heap.LoopScope global scope' (summing m b) ∧
      ∀ steps, (evalSteps (E (levels + 2)) (fuel + 1) (steps + 2) TailLoop.sum.body scope).outcome w =
        (evalSteps (E (levels + 2)) (fuel + 1) steps TailLoop.sum.body scope').outcome w' := by
  have hsum : (E (levels + 2) (ofList [.sym "+", .sym "n", .sym "acc"]) scope).outcome w =
      some (.ok (.int b), w) := by
    rw [summed_outcome h hE, Native.exact, integer?_eq_some_iff.mpr hb]
    rfl
  have hargs : InOrder (E (levels + 2) · scope)
      [TailLoop.oneLess, ofList [.sym "+", .sym "n", .sym "acc"]] w [.int m, .int b] w :=
    .cons (h.oneLess hE rfl hm) (.cons hsum .nil)
  obtain ⟨scope', w', hscope, hcall⟩ := h.call hE .sum hargs (by
    rw [bindParams_sum]
    exact summing_free m b)
  rw [bindParams_sum] at hscope
  refine ⟨scope', w', hscope, fun steps => ?_⟩
  rw [TailLoop.body, h.choose hE rfl, if_neg hn]
  exact hcall steps

/-- A sum that is too large ends the loop. -/
theorem sum_overflow (h : w.heap.LoopScope global scope (summing n a)) (hE : Layered (fuel + 1) E)
    (hn : n.toInt ≠ 0) (hm : m.toInt = n.toInt - 1) (hb : integer? (n.toInt + a.toInt) = none)
    (steps : Nat) :
    (evalSteps (E (levels + 2)) (fuel + 1) (steps + 2) TailLoop.sum.body scope).outcome w =
      some (.error (Cause.overflow "+").fault, w) := by
  have hsum : (E (levels + 2) (ofList [.sym "+", .sym "n", .sym "acc"]) scope).outcome w =
      some (.error (Cause.overflow "+").fault, w) := by
    rw [summed_outcome h hE, Native.exact, hb]
    rfl
  obtain ⟨id, note, hname, -⟩ := h.loops.loop .sum
  rw [← h.lookup_global TailLoop.sum.name_mem] at hname
  have hbefore : InOrder (E (levels + 2) · scope) [.sym "sum2", TailLoop.oneLess] w
      [.fn id false note, .int m] w :=
    .cons (hE.symbol hname rfl) (.cons (h.oneLess hE rfl hm) .nil)
  rw [TailLoop.body, h.choose hE rfl, if_neg hn]
  exact evalSteps_part_error _ rfl rfl hname (by simp) hbefore hsum

/-- With nothing left to add, the sum so far is the answer. -/
theorem sum_end (h : w.heap.LoopScope global scope (summing n a)) (hE : Layered (fuel + 1) E)
    (hn : n.toInt = 0) (steps : Nat) :
    (evalSteps (E (levels + 2)) (fuel + 1) (steps + 2) TailLoop.sum.body scope).outcome w =
      some (.ok (.int a), w) := by
  rw [TailLoop.body, h.choose hE rfl, if_pos hn, evalSteps_symbol (h.lookup_own rfl)]
  rfl

/-- The sum of all numbers down to zero and of what has been added up before, if it is in range. -/
def runningTotal (a n : Int) : Except Fault Value :=
  match integer? (a + n * (n + 1) / 2) with
  | some k => .ok (.int k)
  | none => .error (Cause.overflow "+").fault

/-- A turn leaves the total as it is. -/
theorem runningTotal_turn (hm : m.toInt = n.toInt - 1) (hb : b.toInt = n.toInt + a.toInt) :
    runningTotal b.toInt m.toInt = runningTotal a.toInt n.toInt := by
  have hsame : b.toInt + m.toInt * (m.toInt + 1) / 2 = a.toInt + n.toInt * (n.toInt + 1) / 2 := by
    rw [triangle_step n.toInt, hm, hb]
    omega
  rw [runningTotal, runningTotal, hsame]

/-- What overflows on the way would have overflowed in the end. -/
theorem runningTotal_overflow (ha : 0 ≤ a.toInt) (hn : 0 < n.toInt)
    (hb : integer? (n.toInt + a.toInt) = none) :
    runningTotal a.toInt n.toInt = .error (Cause.overflow "+").fault := by
  have hrest : 0 ≤ (n.toInt - 1) * (n.toInt - 1 + 1) / 2 :=
    Int.ediv_nonneg (Int.mul_nonneg (by omega) (by omega)) (by decide)
  have hnone : integer? (a.toInt + n.toInt * (n.toInt + 1) / 2) = none := by
    apply integer?_none_of_le hb (by omega)
    rw [triangle_step n.toInt]
    omega
  rw [runningTotal, hnone]

/-- The loop of the sum, turn by turn. -/
theorem sum_run (hE : Layered (fuel + 1) E) (k : Nat) (h : w.heap.LoopScope global scope (summing n a))
    (hn : n.toInt = k) (ha : 0 ≤ a.toInt) (steps : Nat)
    (hsteps : 2 * k + 2 ≤ steps) :
    ∃ w', (evalSteps (E (levels + 2)) (fuel + 1) steps TailLoop.sum.body scope).outcome w =
      some (runningTotal a.toInt n.toInt, w') := by
  obtain ⟨steps, rfl⟩ : ∃ s, steps = s + 2 := ⟨steps - 2, by omega⟩
  induction k generalizing n a w scope steps with
  | zero =>
    have hinteger : integer? (a.toInt + n.toInt * (n.toInt + 1) / 2) = some a := by
      rw [integer?_eq_some_iff, hn]
      simp
    rw [runningTotal, hinteger]
    exact ⟨w, sum_end h hE hn steps⟩
  | succ k ih =>
    have hpos : 0 < n.toInt := by omega
    obtain ⟨m, hm⟩ := integer?_pred hpos
    cases hb : integer? (n.toInt + a.toInt) with
    | none =>
      rw [runningTotal_overflow ha hpos hb]
      exact ⟨w, sum_overflow h hE (by omega) hm hb steps⟩
    | some b =>
      rw [integer?_eq_some_iff] at hb
      obtain ⟨steps, rfl⟩ : ∃ s, steps = s + 2 := ⟨steps - 2, by omega⟩
      obtain ⟨scope', w', hscope, hturn⟩ := sum_turn h hE (by omega) hm hb
      obtain ⟨w'', hrest⟩ := ih hscope (by omega) (by omega) steps (by omega)
      rw [runningTotal_turn hm hb] at hrest
      exact ⟨w'', (hturn (steps + 2)).trans hrest⟩

/-- Of two functions that take turns, each hands over to the other one. -/
theorem pass_body {loop : TailLoop} (hloop : loop = .foo ∨ loop = .bar) :
    ∃ other : TailLoop, (other = .foo ∨ other = .bar) ∧ other.params = ["n"] ∧
      loop.body = ofList [.sym "if", TailLoop.isZero "n", .int 0,
        ofList [.sym other.name, TailLoop.oneLess]] := by
  obtain rfl | rfl := hloop
  · exact ⟨.bar, .inr rfl, rfl, rfl⟩
  · exact ⟨.foo, .inl rfl, rfl, rfl⟩

theorem pass_end {loop : TailLoop} (hloop : loop = .foo ∨ loop = .bar)
    (h : w.heap.LoopScope global scope (counting n)) (hE : Layered (fuel + 1) E) (hn : n.toInt = 0)
    (steps : Nat) :
    (evalSteps (E (levels + 2)) (fuel + 1) (steps + 2) loop.body scope).outcome w =
      some (.ok (.int 0), w) := by
  obtain ⟨other, -, -, hbody⟩ := pass_body hloop
  rw [hbody, h.choose hE rfl, if_pos hn]
  rfl

/-- In a turn the other one of the two goes on with one less. -/
theorem pass_turn {loop : TailLoop} (hloop : loop = .foo ∨ loop = .bar)
    (h : w.heap.LoopScope global scope (counting n)) (hE : Layered (fuel + 1) E) (hn : n.toInt ≠ 0)
    (hm : m.toInt = n.toInt - 1) :
    ∃ other : TailLoop, (other = .foo ∨ other = .bar) ∧
      ∃ scope' w', w'.heap.LoopScope global scope' (counting m) ∧
        ∀ steps, (evalSteps (E (levels + 2)) (fuel + 1) (steps + 2) loop.body scope).outcome w =
          (evalSteps (E (levels + 2)) (fuel + 1) steps other.body scope').outcome w' := by
  obtain ⟨other, hother, hparams, hbody⟩ := pass_body hloop
  have hargs : InOrder (E (levels + 2) · scope) [TailLoop.oneLess] w [.int m] w :=
    .cons (h.oneLess hE rfl hm) .nil
  have hbind : bindParams [] other.params [.int m] = counting m := by
    rw [hparams]
    rfl
  obtain ⟨scope', w', hscope, hcall⟩ := h.call hE other hargs (hbind ▸ counting_free m)
  rw [hbind] at hscope
  refine ⟨other, hother, scope', w', hscope, fun steps => ?_⟩
  rw [hbody, h.choose hE rfl, if_neg hn]
  exact hcall steps

theorem pass_run (hE : Layered (fuel + 1) E) (k : Nat) {loop : TailLoop}
    (hloop : loop = .foo ∨ loop = .bar) (h : w.heap.LoopScope global scope (counting n))
    (hn : n.toInt = k) (steps : Nat)
    (hsteps : 2 * k + 2 ≤ steps) :
    ∃ w', (evalSteps (E (levels + 2)) (fuel + 1) steps loop.body scope).outcome w =
      some (.ok (.int 0), w') := by
  obtain ⟨steps, rfl⟩ : ∃ s, steps = s + 2 := ⟨steps - 2, by omega⟩
  induction k generalizing n w scope steps loop with
  | zero => exact ⟨w, pass_end hloop h hE hn steps⟩
  | succ k ih =>
    obtain ⟨steps, rfl⟩ : ∃ s, steps = s + 2 := ⟨steps - 2, by omega⟩
    have hpos : 0 < n.toInt := by omega
    obtain ⟨m, hm⟩ := integer?_pred hpos
    obtain ⟨other, hother, scope', w', hscope, hturn⟩ := pass_turn hloop h hE (by omega) hm
    obtain ⟨w'', hrest⟩ := ih hother hscope (by omega) steps (by omega)
    exact ⟨w'', (hturn (steps + 2)).trans hrest⟩

/-- The countdown opens an inner scope for what remains, and decides there whether to go on. -/
theorem countDown_open (h : w.heap.LoopScope global scope (counting n)) (hE : Layered (fuel + 1) E)
    (hm : m.toInt = n.toInt - 1) :
    ∃ inner w', w'.heap.LoopScope global inner (("m", .int m) :: counting n) ∧
      ∀ steps, (evalSteps (E (levels + 2)) (fuel + 1) (steps + 3) TailLoop.countDown.body
          scope).outcome w =
        (evalSteps (E (levels + 2)) (fuel + 1) steps
          (if m.toInt = 0 then .kw "done" else ofList [.sym "count-down", .sym "m"])
          inner).outcome w' := by
  have hm_free : ∀ name ∈ TailLoop.names, Entries.find? name [("m", Value.int m)] = none := by
    simp [TailLoop.names, Entries.find?]
  have hinner := h.enter hm_free
  have hentered : (w.heap.enter (some scope) []).1.LoopScope global (w.heap.enter (some scope) []).2
      (counting n) := h.enter fun _ _ => rfl
  let w₁ : World := { w with heap := (w.heap.enter (some scope) []).1 }
  let w₂ : World := { w with heap := (w.heap.enter (some scope) [("m", .int m)]).1 }
  have hless : (E (levels + 2) TailLoop.oneLess (w.heap.enter (some scope) []).2).outcome w₁ =
      some (.ok (.int m), w₁) := hentered.oneLess hE rfl hm
  let choice : Value := ofList [.sym "if", TailLoop.isZero "m", .kw "done",
    ofList [.sym "count-down", .sym "m"]]
  have hlet : (evalStep (E (levels + 2)) (fuel + 1) TailLoop.countDown.body scope).outcome w =
      some (.ok (.tail (ofList [.sym "do", choice]) (w.heap.enter (some scope) [("m", .int m)]).2),
        w₂) := evalStep_letOne (h.lookup_form .letIn (by decide)) hless
  have hdo : (evalStep (E (levels + 2)) (fuel + 1) (ofList [.sym "do", choice])
      (w.heap.enter (some scope) [("m", .int m)]).2).outcome w₂ =
        some (.ok (.tail choice (w.heap.enter (some scope) [("m", .int m)]).2), w₂) :=
    evalStep_same (Heap.expander?_of_lookup _ _ (hinner.lookup_form .sequence (by decide)))
  refine ⟨_, w₂, hinner, fun steps => ?_⟩
  rw [evalSteps_tail hlet, evalSteps_tail hdo]
  exact Heap.LoopScope.choose hinner hE rfl _ _ steps

/-- A turn of the countdown: it calls itself with one less, unless that is zero. -/
theorem countDown_turn (h : w.heap.LoopScope global scope (counting n)) (hE : Layered (fuel + 1) E)
    (hm : m.toInt = n.toInt - 1) (hne : m.toInt ≠ 0) :
    ∃ scope' w', w'.heap.LoopScope global scope' (counting m) ∧
      ∀ steps, (evalSteps (E (levels + 2)) (fuel + 1) (steps + 4) TailLoop.countDown.body
          scope).outcome w =
        (evalSteps (E (levels + 2)) (fuel + 1) steps TailLoop.countDown.body scope').outcome w' := by
  obtain ⟨inner, w₁, hinner, hopen⟩ := countDown_open h hE hm
  have hargs : InOrder (E (levels + 2) · inner) [.sym "m"] w₁ [.int m] w₁ :=
    .cons (hE.symbol (hinner.lookup_own rfl) rfl) .nil
  obtain ⟨scope', w', hscope, hcall⟩ := hinner.call hE .countDown hargs (counting_free m)
  refine ⟨scope', w', hscope, fun steps => ?_⟩
  rw [hopen (steps + 1), if_neg hne]
  exact hcall steps

theorem countDown_end (h : w.heap.LoopScope global scope (counting n)) (hE : Layered (fuel + 1) E)
    (hm : m.toInt = n.toInt - 1) (hzero : m.toInt = 0) (steps : Nat) :
    ∃ w', (evalSteps (E (levels + 2)) (fuel + 1) (steps + 4) TailLoop.countDown.body
      scope).outcome w = some (.ok (.kw "done"), w') := by
  obtain ⟨inner, w₁, -, hopen⟩ := countDown_open h hE hm
  refine ⟨w₁, (hopen (steps + 1)).trans ?_⟩
  rw [if_pos hzero]
  rfl

theorem countDown_run (hE : Layered (fuel + 1) E) (k : Nat)
    (h : w.heap.LoopScope global scope (counting n)) (hn : n.toInt = k + 1) (steps : Nat)
    (hsteps : 4 * k + 4 ≤ steps) :
    ∃ w', (evalSteps (E (levels + 2)) (fuel + 1) steps TailLoop.countDown.body scope).outcome w =
      some (.ok (.kw "done"), w') := by
  obtain ⟨steps, rfl⟩ : ∃ s, steps = s + 4 := ⟨steps - 4, by omega⟩
  have hpos : 0 < n.toInt := by omega
  obtain ⟨m, hm⟩ := integer?_pred hpos
  induction k generalizing n m w scope steps with
  | zero => exact countDown_end h hE hm (by omega) steps
  | succ k ih =>
    obtain ⟨steps, rfl⟩ : ∃ s, steps = s + 4 := ⟨steps - 4, by omega⟩
    obtain ⟨scope', w', hscope, hturn⟩ := countDown_turn h hE hm (by omega)
    have hpos' : 0 < m.toInt := by omega
    obtain ⟨m', hm'⟩ := integer?_pred hpos'
    obtain ⟨w'', hrest⟩ := ih hscope (by omega) steps (by omega) hpos' m' hm'
    exact ⟨w'', (hturn (steps + 4)).trans hrest⟩

end Turns

namespace TailLoop

/-- The function that the definition of the loop makes. -/
def closure (loop : TailLoop) (scope : ScopeId) : Closure :=
  ⟨loop.params, loop.body, scope⟩

set_option maxRecDepth 8000 in
theorem read_source (loop : TailLoop) : Value.read loop.source =
    .ok (some (ofList [.sym "def!", .sym loop.name,
      ofList [.sym "fn*", ofList (loop.params.map .sym), loop.body]])) := by
  cases loop <;>
  · refine read_of_tokens rfl ?_
    with_unfolding_all rfl

theorem body_clean (loop : TailLoop) : loop.body.Clean := by
  have hform := clean_of_read loop.read_source
  simp only [clean_ofList, List.forall_mem_cons] at hform
  exact hform.2.2.1.2.2.1

theorem params?_params (loop : TailLoop) :
    SpecialForm.params? (ofList (loop.params.map .sym)) = some loop.params := by
  cases loop <;> rfl

theorem name_injective {loop other : TailLoop} (h : loop.name = other.name) : loop = other := by
  revert h
  cases loop <;> cases other <;> decide

end TailLoop

namespace Session

variable {fuel : Nat} {global : ScopeId} {w : World}

/-- The loops that have been defined so far in a global scope that is otherwise as it was at first. -/
structure Loops (start heap : Heap) (global : ScopeId) (loops : List TailLoop) : Prop where
  frame : heap.Global global
  kept : start.Retains global standardNames heap
  loop : ∀ loop ∈ loops, ∃ id note,
    heap.scopes.lookup global loop.name = some (.fn id false note) ∧
      heap.closure? id = some (loop.closure global)

/-- One more definition keeps those before it. -/
theorem Loops.withFunction {start : Heap} {loops : List TailLoop}
    (h : Loops start w.heap global loops) (loop : TailLoop) :
    Loops start (w.withFunction global loop.name (loop.closure global)).heap global (loop :: loops) where
  frame := by
    have hname : loop.name ∉ reservedNames := by
      cases loop <;> decide
    exact h.frame.withFunction hname loop.body_clean
  kept := by
    have hname : loop.name ∉ standardNames := by
      cases loop <;> decide
    exact h.kept.trans (.withFunction h.frame loop.body_clean hname)
  loop other hother := by
    by_cases hsame : other = loop
    · obtain ⟨id, hid, hclosure⟩ := h.frame.lookup_withFunction
      rw [hsame]
      exact ⟨id, .nil, hid, hclosure⟩
    · obtain ⟨id, note, hid, hclosure⟩ := h.loop other (List.mem_of_ne_of_mem hsame hother)
      have hname : loop.name ∉ [other.name] := fun hmem =>
        hsame (TailLoop.name_injective (List.mem_singleton.mp hmem)).symm
      have hretains : w.heap.Retains global [other.name]
          (w.withFunction global loop.name (loop.closure global)).heap :=
        .withFunction h.frame loop.body_clean hname
      exact ⟨id, note, (hretains.names _ (List.mem_singleton_self _)).trans hid,
        hretains.closures _ _ hclosure⟩

/-- The texts define the loops, one after the other. -/
theorem load_loops {start : Heap} (fuel : Nat) (todo : List TailLoop) {done : List TailLoop}
    (h : Loops start w.heap global done) :
    ∃ w', (load (fuel + 1) global (todo.map TailLoop.source)).outcome w = some (.ok (), w') ∧
      Loops start w'.heap global (todo.reverse ++ done) := by
  induction todo generalizing w done with
  | nil => exact ⟨w, rfl, h⟩
  | cons loop todo ih =>
    obtain ⟨v, hdefined⟩ := evalText_function h.frame loop.read_source loop.params?_params
    obtain ⟨w', hload, hloops⟩ := ih (h.withFunction loop)
    refine ⟨w', (load_cons _ hdefined).trans hload, ?_⟩
    rw [List.reverse_cons, List.append_assoc]
    exact hloops

/-- In a new global scope the texts of the loops define them, and leave the names as they were that
the loops are made of. -/
theorem newGlobal_loops {files : Files} {input : String} {clock : Int64}
    (h : (newGlobal fuel).outcome (World.start files input clock) = some (.ok global, w)) :
    ∃ w', (load 1 global ([TailLoop.sum, .foo, .bar, .countDown].map TailLoop.source)).outcome w =
      some (.ok (), w') ∧ w'.heap.HasLoops global := by
  have hstandard := newGlobal_standard h
  obtain ⟨w', hload, hloops⟩ := load_loops 0 [.sum, .foo, .bar, .countDown]
    ⟨newGlobal_global h, .refl, fun _ hmem => absurd hmem (List.not_mem_nil)⟩
  obtain ⟨s, hs, ho, -⟩ := hloops.frame.frame
  refine ⟨w', hload, ⟨s, hs, ho⟩, ?_, ?_, ?_⟩
  · intro op _
    exact ⟨.nil, (hloops.kept.names _ (mem_standardNames_native op)).trans (hstandard.native op)⟩
  · intro form _ id note hlookup
    rw [hloops.kept.names _ (mem_standardNames_form form), hstandard.form form] at hlookup
    cases hlookup
  · intro loop
    apply hloops.loop loop
    cases loop <;> decide

end Session

/-- However often the loops go around, three levels are enough, wherever they are called from: the sum
ends with the sum of all numbers unless that is out of range, the two that take turns end with zero,
and the countdown ends. -/
theorem tail_loops_end {w : World} {global scope : ScopeId} {bindings : Entries String Value}
    (h : w.heap.LoopScope global scope bindings) {n : Int64} (hn : 0 ≤ n.toInt) {levels fuel : Nat}
    (hlevels : 3 ≤ levels) (hfuel : 4 * n.toInt.toNat + 4 ≤ fuel) :
    (∃ w', (evalWithin fuel levels (ofList [.sym "sum2", .int n, .int 0]) scope).outcome w =
      some (match integer? (n.toInt * (n.toInt + 1) / 2) with
        | some total => .ok (.int total)
        | none => .error (Cause.overflow "+").fault, w')) ∧
    (∃ w', (evalWithin fuel levels (ofList [.sym "foo", .int n]) scope).outcome w =
      some (.ok (.int 0), w')) ∧
    (∃ w', (evalWithin fuel levels (ofList [.sym "bar", .int n]) scope).outcome w =
      some (.ok (.int 0), w')) ∧
    (0 < n.toInt →
      ∃ w', (evalWithin fuel levels (ofList [.sym "count-down", .int n]) scope).outcome w =
        some (.ok (.kw "done"), w')) := by
  obtain ⟨levels, rfl⟩ : ∃ l, levels = l + 3 := ⟨levels - 3, by omega⟩
  obtain ⟨fuel, rfl⟩ : ∃ f, fuel = f + 1 := ⟨fuel - 1, by omega⟩
  have hE := layered_evalWithin (fuel + 1)
  have hint {k : Int64} : (evalWithin (fuel + 1) (levels + 2) (.int k) scope).outcome w =
      some (.ok (.int k), w) := hE.int k scope
  have hone : InOrder (evalWithin (fuel + 1) (levels + 2) · scope) [.int n] w [.int n] w :=
    .cons hint .nil
  have htwo : InOrder (evalWithin (fuel + 1) (levels + 2) · scope) [.int n, .int 0] w
      [.int n, .int 0] w := .cons hint (.cons hint .nil)
  have hpass : ∀ loop : TailLoop, loop = .foo ∨ loop = .bar →
      ∃ w', (evalWithin (fuel + 1) (levels + 3) (ofList [.sym loop.name, .int n]) scope).outcome w =
        some (.ok (.int 0), w') := by
    intro loop hloop
    have hbind : bindParams [] loop.params [.int n] = counting n := by
      obtain rfl | rfl := hloop <;> rfl
    obtain ⟨scope', w₁, hscope, hcall⟩ := h.call hE loop hone (hbind ▸ counting_free n)
    rw [hbind] at hscope
    obtain ⟨w', hrun⟩ := pass_run hE n.toInt.toNat hloop hscope (by omega) fuel (by omega)
    exact ⟨w', (hcall fuel).trans hrun⟩
  refine ⟨?_, hpass .foo (.inl rfl), hpass .bar (.inr rfl), fun hpos => ?_⟩
  · obtain ⟨scope', w₁, hscope, hcall⟩ := h.call hE .sum htwo (by
      rw [bindParams_sum]
      exact summing_free n 0)
    rw [bindParams_sum] at hscope
    obtain ⟨w', hrun⟩ := sum_run hE n.toInt.toNat hscope (by omega) (by simp) fuel (by omega)
    rw [Int64.toInt_zero, runningTotal, Int.zero_add] at hrun
    exact ⟨w', (hcall fuel).trans hrun⟩
  · obtain ⟨scope', w₁, hscope, hcall⟩ := h.call hE .countDown hone (counting_free n)
    obtain ⟨w', hrun⟩ := countDown_run hE (n.toInt.toNat - 1) hscope (by omega) fuel
      (by omega)
    exact ⟨w', (hcall fuel).trans hrun⟩

/-- In a new global scope the texts of the loops define functions that end within three levels. -/
theorem tail_loops_end_new :
    ∃ global w w', (Session.newGlobal 1).outcome (World.start Files.empty "" 0) =
        some (.ok global, w) ∧
      (Session.load 1 global ([TailLoop.sum, .foo, .bar, .countDown].map TailLoop.source)).outcome w =
        some (.ok (), w') ∧
      ∃ ending, (evalWithin 44 3 (ofList [.sym "count-down", .int 10]) global).outcome w' =
        some (.ok (.kw "done"), ending) := by
  obtain ⟨global, w, hnew, -⟩ := Session.newGlobal_makes 0 Files.empty "" 0
  obtain ⟨w', hload, hloops⟩ := Session.newGlobal_loops hnew
  have hten : (10 : Int64).toInt = 10 := by decide
  have hfuel : 4 * (10 : Int64).toInt.toNat + 4 ≤ 44 := by
    rw [hten]
    decide
  obtain ⟨-, -, -, hcount⟩ := tail_loops_end hloops.loopScope (by rw [hten]; decide) (Nat.le_refl 3)
    hfuel
  exact ⟨global, w, w', hnew, hload, hcount (by rw [hten]; decide)⟩

end MiniLisp
