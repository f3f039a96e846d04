import MiniLisp.Proofs.Entries
import MiniLisp.Proofs.Stepping

namespace MiniLisp

open Run

/-- Something that is under way in an evaluation. -/
inductive Task where
  /-- A form inside is evaluated, one level deeper. -/
  | eval (form : Value) (scope : ScopeId)
  /-- An evaluation goes on with a form, with so many steps left. -/
  | steps (count : Nat) (form : Value) (scope : ScopeId)
  /-- A form is expanded. -/
  | expand (count : Nat) (form : Value) (scope : ScopeId)
  /-- A native runs. -/
  | native (count : Nat) (op : Native) (args : List Value) (scope : ScopeId)
  /-- A native calls something. -/
  | call (count : Nat) (f : Value) (args : List Value) (scope : ScopeId)

def Task.run (ev : Evaluator) (fuel : Nat) : Task → Run Value
  | eval form scope => ev form scope
  | steps count form scope => evalSteps ev fuel count form scope
  | expand count form scope => MiniLisp.expand ev count form scope
  | native count op args scope => do Run.settle (← op.call ev count args scope)
  | call count f args scope => f.call ev count args scope

/-- The bindings of a row are made one after the other. -/
inductive Binds (ev : Evaluator) (scope : ScopeId) : List Value → World → World → Prop
  | nil {w} : Binds ev scope [] w w
  | cons {name form v row w w' w''} (head : (ev form scope).outcome w = some (.ok v, w'))
      (tail : Binds ev scope row { w' with heap := w'.heap.bind scope name v } w'') :
      Binds ev scope (.sym name :: form :: row) w w''

/-- The first step of an expanded form comes to a task: all that is evaluated before it has ended
well, from the first world to the second one. -/
inductive Inside (ev : Evaluator) (fuel : Nat) (scope : ScopeId) :
    Value → World → Task → World → Prop
  /-- A part of a call. -/
  | item {parts x rest note w vs w'} (hs : SpecialForm.heading? (parts ++ x :: rest) = none)
      (h : InOrder (ev · scope) parts w vs w') :
      Inside ev fuel scope (.list (parts ++ x :: rest) note) w (.eval x scope) w'
  | element {items x rest note w vs w'} (h : InOrder (ev · scope) items w vs w') :
      Inside ev fuel scope (.vec (items ++ x :: rest) note) w (.eval x scope) w'
  /-- A value of a hash-map, after those of all smaller keys. -/
  | entry {entries : Entries Key Value} {key x note w vs w'} (hk : entries.Ascending)
      (hx : (key, x) ∈ entries)
      (h : InOrder (ev · scope) ((entries.filter fun e => compare e.1 key = .lt).map (·.2)) w vs w') :
      Inside ev fuel scope (.map entries note) w (.eval x scope) w'
  /-- A form of a sequence other than the last one. -/
  | earlier {forms x next rest note w vs w'} (h : InOrder (ev · scope) forms w vs w') :
      Inside ev fuel scope (.list (.sym "do" :: (forms ++ x :: next :: rest)) note) w
        (.eval x scope) w'
  | binding {bindings name x front rest body note w w'}
      (hb : bindings.elements? = some (front ++ .sym name :: x :: rest))
      (heven : (front ++ .sym name :: x :: rest).length % 2 = 0)
      (h : Binds ev (w.heap.enter (some scope) []).2 front
        { w with heap := (w.heap.enter (some scope) []).1 } w') :
      Inside ev fuel scope (.list [.sym "let*", bindings, body] note) w
        (.eval x (w.heap.enter (some scope) []).2) w'
  | condition {x branches note w} (hb : branches.length = 1 ∨ branches.length = 2) :
      Inside ev fuel scope (.list (.sym "if" :: x :: branches) note) w (.eval x scope) w
  | definition {head name x note w} (hh : head = "def!" ∨ head = "defmacro!") :
      Inside ev fuel scope (.list [.sym head, .sym name, x] note) w (.eval x scope) w
  | expansion {x note w} :
      Inside ev fuel scope (.list [.sym "macroexpand", x] note) w (.expand fuel x scope) w

/-- A task comes to another one that it is part of, and waits for it: all that is evaluated before
has ended well, from the first world to the second one. -/
inductive Awaits (ev : Evaluator) (fuel : Nat) : Task → World → Task → World → Prop
  /-- A step begins with an expansion. -/
  | expanding {count form scope w} :
      Awaits ev fuel (.steps (count + 1) form scope) w (.expand fuel form scope) w
  | inside {count form scope expanded t w w' w''}
      (hx : (expand ev fuel form scope).outcome w = some (.ok expanded, w'))
      (h : Inside ev fuel scope expanded w' t w'') :
      Awaits ev fuel (.steps (count + 1) form scope) w t w''
  /-- Head and arguments of a call have their values, and the head is a native. -/
  | applied {count form scope items note op note' args w w' w''}
      (hx : (expand ev fuel form scope).outcome w = some (.ok (.list items note), w'))
      (hs : SpecialForm.heading? items = none)
      (h : InOrder (ev · scope) items w' (.native op note' :: args) w'') :
      Awaits ev fuel (.steps (count + 1) form scope) w (.native fuel op args scope) w''
  /-- The evaluation goes on with the form in tail position. -/
  | tail {count form scope next inner w w'}
      (h : (evalStep ev fuel form scope).outcome w = some (.ok (.tail next inner), w')) :
      Awaits ev fuel (.steps (count + 1) form scope) w (.steps count next inner) w'
  /-- The body of an expander. -/
  | expander {count form scope c args w} (h : w.heap.expander? form scope = some (c, args)) :
      Awaits ev fuel (.expand (count + 1) form scope) w
        (.eval c.body (w.heap.enter (some c.scope) (bindParams [] c.params args)).2)
        { w with heap := (w.heap.enter (some c.scope) (bindParams [] c.params args)).1 }
  /-- What an expander has made is expanded in turn. -/
  | again {count form scope c args next w w'} (h : w.heap.expander? form scope = some (c, args))
      (hc : (c.call ev args).outcome w = some (.ok next, w')) :
      Awaits ev fuel (.expand (count + 1) form scope) w (.expand count next scope) w'
  | apply {count f front last items scope w} (hf : Native.apply.callable f = .ok ())
      (hl : last.elements? = some items) :
      Awaits ev fuel (.native (count + 1) .apply (f :: (front ++ [last])) scope) w
        (.call count f (front ++ items) scope) w
  | map {count f xs items x rest scope w vs w'} (hf : Native.map.callable f = .ok ())
      (hx : xs.elements? = some (items ++ x :: rest))
      (h : InOrder (fun item => f.call ev count [item] scope) items w vs w') :
      Awaits ev fuel (.native (count + 1) .map [f, xs] scope) w (.call count f [x] scope) w'
  | swap {count id note f extra scope w} (hf : Native.swap.callable f = .ok ()) :
      Awaits ev fuel (.native (count + 1) .swap (.atom id note :: f :: extra) scope) w
        (.call count f (w.heap.cell id :: extra) scope) w
  | eval {count form scope w} :
      Awaits ev fuel (.native (count + 1) .eval [form] scope) w
        (.eval form (w.heap.scopes.root scope)) w
  | native {count op note args scope w} :
      Awaits ev fuel (.call count (.native op note) args scope) w (.native count op args scope) w
  | function {count id expander note c args scope w} (h : w.heap.closure? id = some c) :
      Awaits ev fuel (.call count (.fn id expander note) args scope) w
        (.eval c.body (w.heap.enter (some c.scope) (bindParams [] c.params args)).2)
        { w with heap := (w.heap.enter (some c.scope) (bindParams [] c.params args)).1 }

section Errors

variable {ev : Evaluator} {fuel : Nat} {scope : ScopeId} {w w' w'' : World} {fault : Fault}

theorem Entries.Ascending.split {entries : Entries Key Value} (hk : entries.Ascending) {key : Key}
    {v : Value} (h : (key, v) ∈ entries) :
    ∃ rest, entries = (entries.filter fun e => compare e.1 key = .lt) ++ (key, v) :: rest := by
  obtain ⟨front, rest, rfl⟩ := List.append_of_mem h
  obtain ⟨-, hrest, hfront⟩ := List.pairwise_append.mp hk
  refine ⟨rest, ?_⟩
  have hbelow : ∀ e ∈ front, compare e.1 key = .lt := fun e he => hfront e he (key, v) (by simp)
  have habove : ∀ e ∈ (key, v) :: rest, compare e.1 key ≠ .lt := by
    intro e he
    rcases List.mem_cons.mp he with rfl | he
    · simp [Std.ReflOrd.compare_self]
    · have hgt : compare key e.1 = .lt := (List.pairwise_cons.mp hrest).1 e he
      rw [Std.OrientedOrd.eq_swap, hgt]
      decide
  rw [List.filter_append, List.filter_eq_self.mpr (by simpa using hbelow),
    List.filter_eq_nil_iff.mpr (by simpa using habove), List.append_nil]

theorem evalCall_error {items rest vs : List Value} {x : Value}
    (h : InOrder (ev · scope) items w vs w')
    (hx : (ev x scope).outcome w' = some (.error fault, w'')) :
    (evalCall ev fuel (items ++ x :: rest) scope).outcome w = some (.error fault, w'') :=
  outcome_bind_error _ (h.mapM_error hx rest)

theorem SpecialForm.runSequence_error {forms vs : List Value} {x next : Value} (rest : List Value)
    (h : InOrder (ev · scope) forms w vs w')
    (hx : (ev x scope).outcome w' = some (.error fault, w'')) :
    (runSequence ev scope (forms ++ x :: next :: rest)).outcome w = some (.error fault, w'') := by
  induction h with
  | nil =>
    rw [List.nil_append, runSequence, discard_eq, bind_assoc, outcome_bind_error _ hx]
    simp
  | cons head tail ih =>
    rw [List.cons_append, runSequence, discard_eq, bind_assoc, outcome_bind_ok _ head, pure_bind,
      ih hx]
    simp

theorem SpecialForm.bindAll_error {front rest : List Value} {name : String} {x : Value}
    (h : Binds ev scope front w w')
    (hx : (ev x scope).outcome w' = some (.error fault, w'')) :
    (bindAll ev scope (front ++ .sym name :: x :: rest)).outcome w = some (.error fault, w'') := by
  induction h with
  | nil => rw [List.nil_append, bindAll, outcome_bind_error _ hx]
  | cons head tail ih =>
    rw [List.cons_append, List.cons_append, bindAll, outcome_bind_ok _ head,
      outcome_bind_ok _ (outcome_bindName _ _ _ _), ih hx]

/-- A failure inside an expanded form is the failure of the form. -/
theorem Inside.error {expanded : Value} {t : Task} (h : Inside ev fuel scope expanded w t w')
    (ht : (t.run ev fuel).outcome w' = some (.error fault, w'')) :
    (evalExpanded ev fuel expanded scope).outcome w = some (.error fault, w'') := by
  cases h with
  | item hs h =>
    rw [evalExpanded_call _ (by simp) hs]
    exact evalCall_error h ht
  | element h => exact outcome_bind_error _ (outcome_bind_error _ (h.mapM_error ht _))
  | @entry entries key x _ _ _ _ hk hx h =>
    obtain ⟨rest, hsplit⟩ := hk.split hx
    obtain ⟨vs, hvs⟩ := h.comp fun v e => (e.1, v)
    have hentry : (do return (key, ← ev x scope) : Run (Key × Value)).outcome w' =
        some (.error fault, w'') := outcome_bind_error _ ht
    have hall := hvs.mapM_error (x := (key, x)) hentry rest
    rw [← hsplit] at hall
    exact outcome_bind_error _ (outcome_bind_error _ hall)
  | earlier h => exact SpecialForm.runSequence_error _ h ht
  | @binding bindings name x front rest body _ _ _ hb heven h =>
    change (SpecialForm.runLetIn ev scope [bindings, body]).outcome w = _
    rw [SpecialForm.runLetIn_pair, hb]
    have heven' : (front ++ .sym name :: x :: rest).length % 2 ≠ 1 := by omega
    simp only [heven', if_false]
    rw [outcome_bind_ok _ (outcome_enter _ _ _)]
    exact outcome_bind_error _ (SpecialForm.bindAll_error h ht)
  | @condition x branches _ _ hb =>
    match branches, hb with
    | [yes], _ => exact outcome_bind_error _ ht
    | [yes, no], _ => exact outcome_bind_error _ ht
  | definition hh =>
    rcases hh with rfl | rfl
    · exact outcome_bind_error _ ht
    · exact outcome_bind_error _ ht
  | expansion => exact outcome_bind_error _ ht

theorem Closure.call_eval (c : Closure) (args : List Value) :
    (c.call ev args).outcome w =
      (ev c.body (w.heap.enter (some c.scope) (bindParams [] c.params args)).2).outcome
        { w with heap := (w.heap.enter (some c.scope) (bindParams [] c.params args)).1 } :=
  outcome_bind_ok _ (outcome_enter _ _ _)

/-- A native whose number of arguments is right does what it is there for. -/
theorem Native.call_perform {op : Native} {count : Nat} {args : List Value}
    (h : op.arity.check op.name args.length = .ok ()) :
    Native.call ev (count + 1) op args scope =
      op.perform ev (fun f args => f.call ev count args scope) args scope := by
  simp only [Native.call, h]
  rfl

/-- A native that only computes leaves the world as it is. -/
theorem Native.compute_outcome {op : Native} {f : List Value → Except Fault Value} {count : Nat}
    {args : List Value} (hf : op.behaviour = .compute f)
    (hcheck : op.arity.check op.name args.length = .ok ()) :
    (Native.call ev (count + 1) op args scope).outcome w = some (f args, w) := by
  rw [call_perform hcheck, perform, hf]
  exact outcome_ofExcept _ _

/-- The native answers these arguments with this result whoever calls it, and leaves the world as it
is. -/
def Native.Answers (op : Native) (args : List Value) (result : Except Fault Value) : Prop :=
  ∀ (ev : Evaluator) (fuel : Nat) (scope : ScopeId) (w : World),
    (Native.call ev (fuel + 1) op args scope).outcome w = some (result, w)

theorem Native.Answers.unique {op : Native} {args : List Value} {result result' : Except Fault Value}
    (h : op.Answers args result) (h' : op.Answers args result') : result = result' := by
  have hcall := h (fun _ _ => diverge) 0 ⟨0⟩ (.start Files.empty "" 0)
  rw [h'] at hcall
  cases hcall
  rfl

theorem Native.answers_iff {op : Native} {f : List Value → Except Fault Value} {args : List Value}
    {result : Except Fault Value} (hf : op.behaviour = .compute f)
    (hcheck : op.arity.check op.name args.length = .ok ()) :
    op.Answers args result ↔ f args = result := by
  have hanswers : op.Answers args (f args) := fun _ _ _ _ => compute_outcome hf hcheck
  constructor
  · intro h
    exact hanswers.unique h
  · rintro rfl
    exact hanswers

/-- A native that only computes leaves the world as it is, also where it fails. -/
theorem Native.exists_answers {op : Native} {f : List Value → Except Fault Value}
    (hf : op.behaviour = .compute f) (args : List Value) : ∃ result, op.Answers args result := by
  cases hcheck : op.arity.check op.name args.length with
  | ok => exact ⟨f args, (answers_iff hf hcheck).mpr rfl⟩
  | error fault =>
    refine ⟨.error fault, fun ev fuel scope w => ?_⟩
    rw [Native.call, hcheck]
    exact outcome_bind_error _ (outcome_ofExcept _ _)

theorem Native.apply_call {f last : Value} {front items : List Value} {count : Nat}
    (hf : Native.apply.callable f = .ok ()) (hl : last.elements? = some items) :
    (Native.call ev (count + 1) .apply (f :: (front ++ [last])) scope).outcome w =
      (f.call ev count (front ++ items) scope).outcome w := by
  have hcheck : Native.apply.arity.check Native.apply.name (f :: (front ++ [last])).length =
      .ok () := by
    simp [Arity.check, Arity.Accepts, Native.arity]
  have hitems : Native.apply.callArguments last = .ok items := by
    simp only [callArguments, hl]
  rw [Native.call_perform hcheck]
  cases hargs : front ++ [last] with
  | nil => simp at hargs
  | cons a more =>
    have hlast : (a :: more).getLast (List.cons_ne_nil a more) = last := by
      simp only [← hargs, List.getLast_concat]
    have hfront : (a :: more).dropLast = front := by
      rw [← hargs, List.dropLast_concat]
    simp only [perform, behaviour, runApply, hf, hlast, hitems, hfront]
    rfl

theorem Native.map_error {f xs x : Value} {items rest vs : List Value} {count : Nat}
    (hf : Native.map.callable f = .ok ()) (hxs : xs.elements? = some (items ++ x :: rest))
    (h : InOrder (fun item => f.call ev count [item] scope) items w vs w')
    (hx : (f.call ev count [x] scope).outcome w' = some (.error fault, w'')) :
    (Native.call ev (count + 1) .map [f, xs] scope).outcome w = some (.error fault, w'') := by
  have hcheck : Native.map.arity.check Native.map.name [f, xs].length = .ok () := rfl
  have hitems : Native.map.callArguments xs = .ok (items ++ x :: rest) := by
    simp only [callArguments, hxs]
  rw [Native.call_perform hcheck]
  simp only [perform, behaviour, runMap, hf, hitems, ofExcept_ok, pure_bind]
  exact outcome_bind_error _ (h.mapM_error hx rest)

theorem Native.swap_error {id : CellId} {note f : Value} {extra : List Value} {count : Nat}
    (hf : Native.swap.callable f = .ok ())
    (hx : (f.call ev count (w.heap.cell id :: extra) scope).outcome w = some (.error fault, w')) :
    (Native.call ev (count + 1) .swap (.atom id note :: f :: extra) scope).outcome w =
      some (.error fault, w') := by
  have hcheck : Native.swap.arity.check Native.swap.name (.atom id note :: f :: extra).length =
      .ok () := by
    simp [Arity.check, Arity.Accepts, Native.arity]
  rw [Native.call_perform hcheck]
  simp only [perform, behaviour, runSwap, hf, cell, ofExcept_ok, pure_bind]
  rw [outcome_bind_ok _ (outcome_query _ w), outcome_bind_error _ hx]

/-- A failure of a task that is waited for is the failure of the one that waits. -/
theorem Awaits.error {t t' : Task} (h : Awaits ev fuel t w t' w')
    (ht : (t'.run ev fuel).outcome w' = some (.error fault, w'')) :
    (t.run ev fuel).outcome w = some (.error fault, w'') := by
  cases h with
  | expanding =>
    refine evalSteps_error ?_
    rw [evalStep_eq]
    exact outcome_bind_error _ ht
  | inside hx h =>
    refine evalSteps_error ?_
    rw [evalStep_expanded hx]
    exact h.error ht
  | applied hx hs h =>
    have hstep := evalStep_expanded hx
    rw [evalExpanded_call _ h.ne_nil hs, evalCall_native h] at hstep
    rcases outcome_bind_some ht with ⟨v, w₁, hv, hsettle⟩ | ⟨fault', hv, hfault⟩
    · rw [outcome_bind_ok _ hv] at hstep
      exact (evalSteps_done hstep).trans hsettle
    · cases hfault
      rw [outcome_bind_error _ hv] at hstep
      exact evalSteps_error hstep
  | tail h =>
    exact (evalSteps_tail h).trans ht
  | expander h =>
    refine (expand_once h).trans (outcome_bind_error _ ?_)
    rw [Closure.call_eval]
    exact ht
  | again h hc =>
    refine (expand_once h).trans ?_
    rw [outcome_bind_ok _ hc]
    exact ht
  | apply hf hl =>
    refine outcome_bind_error _ ?_
    rw [Native.apply_call hf hl]
    exact ht
  | map hf hx h => exact outcome_bind_error _ (Native.map_error hf hx h ht)
  | swap hf => exact outcome_bind_error _ (Native.swap_error hf ht)
  | eval => exact outcome_bind_error _ ht
  | native => exact ht
  | function h =>
    have hcall := (Closure.call_eval _ _).trans ht
    refine outcome_bind_error _ ?_
    rw [Value.callWith, outcome_bind_ok _ (outcome_query _ _), h]
    exact hcall

end Errors

end MiniLisp
