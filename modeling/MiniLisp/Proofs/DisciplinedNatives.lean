import MiniLisp.Proofs.Discipline

namespace MiniLisp

open Run

variable {D : Discipline} {count : Nat} {op : Native} {args : List Value} {scope : ScopeId}
  {ev ev' : Evaluator}

namespace Native

theorem runText_obeys (style : Value.Style) (sep : String) :
    (runText style sep args).Obeys D count Anything (runText style sep args) :=
  .bind (.look _) fun _ _ _ _ => .value _

theorem runPrintLine_obeys (style : Value.Style) :
    (runPrintLine style args).Obeys D count Anything (runPrintLine style args) :=
  .bind (.look _) fun _ _ _ _ => .bind (.print _) fun _ _ _ _ => .value _

theorem runSlurp_obeys : (runSlurp args).Obeys D count Anything (runSlurp args) := by
  unfold runSlurp
  split
  · exact .bind (.ofExcept _) fun _ path _ _ => .bind (.readFile path) fun _ _ _ _ => .value _
  · exact .raise _

theorem runReadline_obeys : (runReadline args).Obeys D count Anything (runReadline args) := by
  unfold runReadline
  split
  · refine .bind (.look _) fun _ shown _ _ => .bind (.print _) fun _ _ _ _ => ?_
    refine .bind .readLine fun _ line? _ _ => ?_
    cases line? with
    | none => exact .value _
    | some line => exact .value _
  · exact .raise _

theorem runAtom_obeys : (runAtom args).Obeys D count Anything (runAtom args) := by
  unfold runAtom
  split
  · refine .bind (P := Anything) ?_ fun _ _ _ _ => .value _
    exact .allocate fun _ hheap _ => ⟨D.newCell _ hheap, Nat.le_refl _, trivial⟩
  · exact .raise _

theorem runDeref_obeys : (runDeref args).Obeys D count Anything (runDeref args) := by
  unfold runDeref
  split
  · exact .bind (.ofExcept _) fun _ _ _ _ => .look _
  · exact .raise _

theorem runReset_obeys : (runReset args).Obeys D count Anything (runReset args) := by
  unfold runReset
  split
  · exact .bind (.ofExcept _) fun _ _ _ _ => .bind (.setCell _ _) fun _ _ _ _ => .value _
  · exact .raise _

theorem runTimeMs_obeys : (runTimeMs args).Obeys D count Anything (runTimeMs args) :=
  .bind (.bind .get fun _ _ _ _ => .value _) fun _ _ _ _ => .value _

/-- A native that acts on the world keeps to any discipline. -/
theorem act_obeys {f : List Value → Run Value} (hop : op.behaviour = .act f) :
    (f args).Obeys D count Anything (f args) := by
  cases op <;> cases hop
  case prStr => exact runText_obeys .readable " "
  case str => exact runText_obeys .display ""
  case prn => exact runPrintLine_obeys .readable
  case println => exact runPrintLine_obeys .display
  case slurp => exact runSlurp_obeys
  case readline => exact runReadline_obeys
  case atom => exact runAtom_obeys
  case deref => exact runDeref_obeys
  case reset => exact runReset_obeys
  case timeMs => exact runTimeMs_obeys

section Callbacks

variable {call call' : Value → List Value → Run Value}

theorem runApply_obeys
    (hcall : ∀ f args, (call f args).Obeys D count Anything (call' f args)) :
    (runApply call args).Obeys D count Anything (runApply call' args) := by
  unfold runApply
  split
  · refine .bind (.ofExcept _) fun _ _ hm _ => .bind (.ofExcept _) fun _ _ hm' _ => ?_
    exact (hcall _ _).mono (Nat.le_trans hm hm')
  · exact .raise _

theorem runMap_obeys
    (hcall : ∀ f args, (call f args).Obeys D count Anything (call' f args)) :
    (runMap call args).Obeys D count Anything (runMap call' args) := by
  unfold runMap
  split
  · refine .bind (.ofExcept _) fun _ _ hm _ => .bind (.ofExcept _) fun _ items hm' _ => ?_
    refine .bind (.mapM (fun item => ?_) items) fun _ _ _ _ => .value _
    exact (hcall _ _).mono (Nat.le_trans hm hm')
  · exact .raise _

theorem runSwap_obeys
    (hcall : ∀ f args, (call f args).Obeys D count Anything (call' f args)) :
    (runSwap call args).Obeys D count Anything (runSwap call' args) := by
  unfold runSwap
  split
  · refine .bind (.ofExcept _) fun _ id hm _ => .bind (.ofExcept _) fun _ _ hm' _ => ?_
    refine .bind (.look _) fun _ held hm'' _ => ?_
    refine .bind ((hcall _ _).mono (Nat.le_trans hm (Nat.le_trans hm' hm''))) fun _ v _ _ => ?_
    exact .bind (.setCell id v) fun _ _ _ _ => .value _
  · exact .raise _

theorem runEval_obeys (hev : ev.Obeys D ev') (hroots : D.AdmitsRoots)
    (hscope : D.Admits count scope) :
    (runEval ev scope args).Obeys D count Anything (runEval ev' scope args) := by
  unfold runEval
  split
  · refine .bind (P := D.Admits) (.query fun heap hheap hcount => ?_) fun _ _ _ hroot => hev _ hroot
    have hknown : heap.Knows scope := (hscope.mono hcount).2
    exact ⟨hroots hheap hscope.1 hknown, Heap.knows_root hknown⟩
  · exact .raise _

theorem perform_obeys (hev : ev.Obeys D ev')
    (hcall : ∀ f args, (call f args).Obeys D count Anything (call' f args))
    (hroots : op = .eval → D.AdmitsRoots) (hscope : D.Admits count scope) :
    (op.perform ev call args scope).Obeys D count Anything (op.perform ev' call' args scope) := by
  unfold perform
  split
  · exact .ofExcept _
  · next f hop => exact act_obeys hop
  · exact runApply_obeys hcall
  · exact runMap_obeys hcall
  · exact runSwap_obeys hcall
  · next hop =>
    have heval : op = .eval := by cases op <;> cases hop; rfl
    exact runEval_obeys hev (hroots heval) hscope

end Callbacks
end Native

theorem Closure.call_obeys (hev : ev.Obeys D ev') {c : Closure} (hc : c.scope.index < count) :
    (c.call ev args).Obeys D count Anything (c.call ev' args) :=
  .bind (.enter hc _) fun _ _ _ hinner => hev c.body hinner

theorem Value.notCallable_obeys {P : Nat → α → Prop} (v : Value) :
    (v.notCallable : Run α).Obeys D count P v.notCallable :=
  .bind (.look _) fun _ _ _ _ => .raise _

theorem Value.callWith_obeys {native native' : Native → List Value → ScopeId → Run Value}
    (hev : ev.Obeys D ev')
    (hn : ∀ op args, (native op args scope).Obeys D count Anything (native' op args scope))
    (f : Value) (args : List Value) :
    (f.callWith ev native args scope).Obeys D count Anything
      (f.callWith ev' native' args scope) := by
  unfold callWith
  split
  · exact hn _ _
  · refine .bind (.closure? _) fun m c? _ hc => ?_
    cases c? with
    | none => exact notCallable_obeys _
    | some c => exact c.call_obeys hev (hc c rfl)
  · exact notCallable_obeys _

end MiniLisp
