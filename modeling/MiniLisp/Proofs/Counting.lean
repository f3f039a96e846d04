import MiniLisp.Proofs.GeneratedNames

namespace MiniLisp

open Value Run

variable {α β : Type} {global scope : ScopeId} {counter : CellId} {w : World}

/-- What the atom holds is kept by the run. -/
def Run.KeepsCell (cell : CellId) (run : Run α) : Prop :=
  ∀ w v, w.heap.Holds cell v → ∀ r w', run.outcome w = some (r, w') → w'.heap.Holds cell v

namespace Run.KeepsCell

variable {cell : CellId}

/-- A run that leaves all atoms alone. -/
theorem of_cells {run : Run α}
    (h : ∀ w r w', run.outcome w = some (r, w') → w'.heap.cells = w.heap.cells) :
    run.KeepsCell cell :=
  fun w _ hv r w' ho => hv.of_cells (h w r w' ho)

theorem pure (a : α) : (Pure.pure a : Run α).KeepsCell cell :=
  .of_cells fun _ _ _ ho => by cases ho; rfl

theorem diverge : (Run.diverge : Run α).KeepsCell cell :=
  .of_cells fun _ _ _ ho => by cases ho

theorem raise (cause : Cause) : (cause.raise : Run α).KeepsCell cell :=
  .of_cells fun _ _ _ ho => by cases ho; rfl

theorem ofExcept (result : Except Fault α) :
    (MonadExcept.ofExcept result : Run α).KeepsCell cell := by
  refine .of_cells fun _ _ _ ho => ?_
  rw [outcome_ofExcept] at ho
  cases ho
  rfl

theorem settle (v : Value) : (Run.settle v).KeepsCell cell :=
  .of_cells fun _ _ _ ho => by cases v <;> cases ho <;> rfl

theorem query (f : Heap → α) : (Run.query f).KeepsCell cell :=
  .of_cells fun _ _ _ ho => by cases ho; rfl

/-- Whatever is changed outside of the atoms. -/
theorem modifyGet {f : World → α × World} (h : ∀ w, (f w).2.heap.cells = w.heap.cells) :
    (MonadState.modifyGet f : Run α).KeepsCell cell :=
  .of_cells fun w _ _ ho => by cases ho; exact h w

theorem bind {run : Run α} {next : α → Run β} (h : run.KeepsCell cell)
    (hn : ∀ a, (next a).KeepsCell cell) : (run >>= next).KeepsCell cell := by
  intro w v hv r w'' ho
  obtain ⟨a, w', ha, hb⟩ | ⟨fault, hfault, -⟩ := outcome_bind_some ho
  · exact hn a w' v (h w v hv _ w' ha) r w'' hb
  · exact h w v hv _ w'' hfault

end Run.KeepsCell

/-- A native that acts on the world keeps what the atom holds, unless it is `reset!` and resets the
atom. -/
theorem Native.act_keepsCell {op : Native} {f : List Value → Run Value} {args : List Value}
    {cell : CellId} (hop : op.behaviour = .act f)
    (hreset : op = .reset → ∀ note v, args ≠ [.atom cell note, v]) : (f args).KeepsCell cell := by
  have htext (style : Value.Style) (sep : String) : (runText style sep args).KeepsCell cell :=
    .bind (.query _) fun _ => .pure _
  have hline (style : Value.Style) : (runPrintLine style args).KeepsCell cell :=
    .bind (.query _) fun _ => .bind (.modifyGet fun _ => rfl) fun _ => .pure _
  cases op <;> cases hop
  case prStr => exact htext .readable " "
  case str => exact htext .display ""
  case prn => exact hline .readable
  case println => exact hline .display
  case slurp =>
    unfold runSlurp
    split
    · refine .bind (.ofExcept _) fun path => .bind (.bind (.modifyGet fun _ => rfl) fun w => ?_)
        fun _ => .pure _
      split
      · exact .pure _
      · exact .raise _
    · exact .ofExcept _
  case readline =>
    unfold runReadline
    split
    · refine .bind (.query _) fun _ => .bind (.modifyGet fun _ => rfl) fun _ => ?_
      refine .bind (.modifyGet fun w => ?_) fun line? => ?_
      · split <;> rfl
      · cases line? <;> exact .pure _
    · exact .ofExcept _
  case atom =>
    unfold runAtom
    split
    · refine .bind (fun w v hv r w' ho => ?_) fun _ => .pure _
      cases ho
      have hlt : cell.index < w.heap.cells.size := (Array.getElem?_eq_some_iff.mp hv).1
      exact (Array.getElem?_push_lt hlt).trans (Array.getElem?_eq_getElem hlt ▸ hv)
    · exact .ofExcept _
  case deref =>
    unfold runDeref
    split
    · exact .bind (.ofExcept _) fun _ => .query _
    · exact .ofExcept _
  case reset =>
    unfold runReset
    split
    · next target v =>
      intro w held hheld r w' ho
      cases target with
      | atom id note =>
        cases ho
        have hne : id.index ≠ cell.index := fun heq =>
          hreset rfl note v (congrArg (fun i => [.atom ⟨i⟩ note, v]) heq)
        exact (Array.getElem?_setIfInBounds_ne hne).trans hheld
      | _ => cases ho; exact hheld
    · exact .ofExcept _
  case timeMs => exact .bind (.bind (.modifyGet fun _ => rfl) fun _ => .pure _) fun _ => .pure _

/-- Where the counter holds a number, and as long as it is left to `gensym`, the names that are generated
have numbers from there on, and none has a number above what the counter holds in the end. -/
def Recorded.CountsFrom (global : ScopeId) (counter : CellId) (m : Recorded α) (w : World) : Prop :=
  ∀ n, w.heap.Holds counter (.int n) → (∀ e ∈ m.events w, e.Fair global counter) →
    ∃ n', Numbered n (generated global (m.events w)) n' ∧
      ∀ r w', m.run.outcome w = some (r, w') → w'.heap.Holds counter (.int n')

/-- In every world. -/
def Recorded.Counts (global : ScopeId) (counter : CellId) (m : Recorded α) : Prop :=
  ∀ w, m.CountsFrom global counter w

namespace Recorded.CountsFrom

theorem bind {m : Recorded α} {next : α → Recorded β} (h : m.CountsFrom global counter w)
    (hn : ∀ a w', m.run.outcome w = some (.ok a, w') → (next a).CountsFrom global counter w') :
    (m >>= next).CountsFrom global counter w := by
  intro n hheld hfair
  obtain ⟨hfair, hfair'⟩ := List.forall_mem_append.mp hfair
  obtain ⟨n', hnames, hends⟩ := h n hheld hfair
  have hevents : (m >>= next).events w =
      m.events w ++ afterwards (fun a => (next a).events) (m.run.outcome w) := rfl
  rw [hevents, generated_append]
  rcases ho : m.run.outcome w with _ | ⟨fault | a, w'⟩
  · refine ⟨n', by simpa [afterwards, generated] using hnames, fun r w' hr => ?_⟩
    cases (show (m >>= next).run.outcome w = none by rw [run_bind, outcome_bind, ho]; rfl).symm.trans hr
  · refine ⟨n', by simpa [afterwards, generated] using hnames, fun r w'' hr => ?_⟩
    cases (outcome_bind_error (fun a => (next a).run) ho).symm.trans hr
    exact hends _ _ ho
  · rw [ho] at hfair'
    obtain ⟨n'', hnames', hends'⟩ := hn a w' ho n' (hends _ _ ho) hfair'
    refine ⟨n'', hnames.append hnames', fun r w'' hr => hends' r w'' ?_⟩
    exact (outcome_bind_ok (fun a => (next a).run) ho).symm.trans hr

end Recorded.CountsFrom

namespace Recorded.Counts

theorem silent {run : Run α} (h : run.KeepsCell counter) :
    (Recorded.silent run).Counts global counter := by
  intro w n hheld _
  exact ⟨n, .none (Int.le_refl _), fun r w' ho => h w _ hheld r w' ho⟩

theorem pure (a : α) : (Pure.pure a : Recorded α).Counts global counter :=
  silent (.pure a)

theorem bind {m : Recorded α} {next : α → Recorded β} (h : m.Counts global counter)
    (hn : ∀ a, (next a).Counts global counter) : (m >>= next).Counts global counter :=
  fun w => .bind (h w) fun a w' _ => hn a w'

theorem attempt {m : Recorded α} (h : m.Counts global counter) :
    m.attempt.Counts global counter := by
  intro w n hheld hfair
  obtain ⟨n', hnames, hends⟩ := h w n hheld hfair
  refine ⟨n', hnames, fun r w' ho => ?_⟩
  rw [Recorded.attempt, outcome_attempt] at ho
  obtain ⟨⟨r', w''⟩, hrun, heq⟩ := Option.map_eq_some_iff.mp ho
  cases heq
  exact hends _ _ hrun

theorem each {f : α → Recorded β} (h : ∀ x, (f x).Counts global counter) (xs : List α) :
    (each f xs).Counts global counter := by
  induction xs with
  | nil => exact pure _
  | cons x xs ih => exact bind (h x) fun y => bind ih fun ys => pure _

section Calls

variable {ev : Recorder} {call : Value → List Value → Recorded Value} {op : Native}
  {args : List Value}

theorem calling {m : Recorded α} (stack : CallStack) (h : m.Counts global counter) :
    (calling stack m).Counts global counter :=
  fun w n hheld hfair => h w n hheld (List.forall_mem_cons.mp hfair).2

/-- What is recorded of a native is where it begins. -/
theorem running {m : Recorded α}
    (h : w.heap.HasGensym global counter → w.heap.LeavesCounter global counter op args →
      m.CountsFrom global counter w) : (running op args scope m).CountsFrom global counter w := by
  intro n hheld hfair
  obtain ⟨⟨hw, hleaves⟩, hfair⟩ := List.forall_mem_cons.mp hfair
  exact h hw hleaves n hheld hfair

/-- The counter is set to a number that is no smaller. -/
theorem set {m : Recorded Value} (h : m.Counts global counter)
    (hgoes : ∀ n, w.heap.Holds counter (.int n) → m.Goes global counter w fun v w' =>
      (∃ k : Int64, v = .int k ∧ n.toInt ≤ k.toInt) ∧ w'.heap.cells = w.heap.cells) :
    (do
      let v ← m
      Recorded.silent (Run.update fun heap => heap.setCell counter v)
      return v : Recorded Value).CountsFrom global counter w := by
  intro n hheld hfair
  have hm := hgoes n hheld
  obtain ⟨hfair, -⟩ := List.forall_mem_append.mp hfair
  obtain ⟨n', hnames, hends⟩ := h w n hheld hfair
  let next := fun v => do
    Recorded.silent (Run.update fun heap => heap.setCell counter v)
    return v
  have hnameless : generated global ((m >>= next).events w) = [] := by
    refine (generated_append _ _ _).trans ?_
    rw [hm.nameless, List.nil_append]
    exact generated_afterwards fun _ _ _ => rfl
  change ∃ n', Numbered n (generated global ((m >>= next).events w)) n' ∧
    ∀ r w', (m >>= next).run.outcome w = some (r, w') → w'.heap.Holds counter (.int n')
  rw [hnameless]
  rcases ho : m.run.outcome w with _ | ⟨fault | v, w'⟩
  · refine ⟨n, .none (Int.le_refl _), fun r w' hr => ?_⟩
    rw [run_bind, outcome_bind, ho] at hr
    cases hr
  · refine ⟨n', .none hnames.le, fun r w'' hr => ?_⟩
    cases (outcome_bind_error (fun v => (next v).run) ho).symm.trans hr
    exact hends _ _ ho
  · obtain ⟨⟨k, rfl, hk⟩, hcells⟩ := hm.ends v w' ho
    refine ⟨k, .none hk, fun r w'' hr => ?_⟩
    cases (outcome_bind_ok (fun v => (next v).run) ho).symm.trans hr
    exact (hheld.of_cells hcells).setCell _

theorem callClosure (hev : ∀ form scope, (ev form scope).Counts global counter) (c : Closure)
    (args : List Value) : (callClosure ev c args).Counts global counter :=
  .bind (.silent (.modifyGet fun _ => rfl)) fun inner => hev c.body inner

theorem callWith {native : Native → List Value → ScopeId → Recorded Value}
    (hev : ∀ form scope, (ev form scope).Counts global counter)
    (hn : ∀ op args, (native op args scope).Counts global counter) (f : Value) (args : List Value) :
    (callWith ev native f args scope).Counts global counter := by
  have hfails (v : Value) : (Recorded.silent (v.notCallable : Run Value)).Counts global counter :=
    .silent (.bind (.query _) fun _ => .raise _)
  cases f with
  | native op note => exact hn op args
  | fn id expander note =>
    refine .bind (.silent (.query _)) fun c? => ?_
    cases c? with
    | none => exact hfails _
    | some c => exact callClosure hev c args
  | _ => exact hfails _

theorem runApply (hcall : ∀ f args, (call f args).Counts global counter) :
    (runApply call args).Counts global counter := by
  unfold Recorded.runApply
  split
  · exact .bind (.silent (.ofExcept _)) fun _ => .bind (.silent (.ofExcept _)) fun _ => hcall _ _
  · exact .silent (.ofExcept _)

theorem runMap (hcall : ∀ f args, (call f args).Counts global counter) :
    (runMap call args).Counts global counter := by
  unfold Recorded.runMap
  split
  · refine .bind (.silent (.ofExcept _)) fun _ => .bind (.silent (.ofExcept _)) fun items => ?_
    exact .bind (.each (fun item => hcall _ _) items) fun _ => .pure _
  · exact .silent (.ofExcept _)

theorem runEval (hev : ∀ form scope, (ev form scope).Counts global counter) :
    (runEval ev scope args).Counts global counter := by
  unfold Recorded.runEval
  split
  · exact .bind (.silent (.query _)) fun root => hev _ root
  · exact .silent (.ofExcept _)

theorem runSwap (hcall : ∀ f args, (call f args).Counts global counter)
    (hcounted : ∀ f n extra, w.heap.CountsOn global f →
      (call f (.int n :: extra)).Goes global counter w fun v w' =>
        (∃ m : Int64, v = .int m ∧ n.toInt ≤ m.toInt) ∧ w'.heap.cells = w.heap.cells)
    (hleaves : w.heap.LeavesCounter global counter .swap args) :
    (runSwap call args).CountsFrom global counter w := by
  unfold Recorded.runSwap
  split
  · next target f extra =>
    refine .bind (silent (.ofExcept _) w) fun id w₁ hid => ?_
    obtain ⟨hcell, rfl⟩ := of_outcome_ofExcept hid
    obtain ⟨note, rfl⟩ : ∃ note, target = .atom id note := by
      cases target <;> cases hcell
      exact ⟨_, rfl⟩
    refine .bind (silent (.ofExcept _) w) fun _ w₁ hcallable => ?_
    obtain ⟨-, rfl⟩ := of_outcome_ofExcept hcallable
    refine .bind (silent (.query _) w) fun held w₁ hheld => ?_
    cases hheld
    by_cases hid : id = counter
    · subst hid
      refine set (hcall _ _) fun n hn => ?_
      simp only [hn.eq]
      exact hcounted f n extra (hleaves.swap rfl note f extra rfl)
    · refine bind (hcall _ _) (fun v => bind (silent fun w v' hv r w' ho => ?_) fun _ => pure _) w
      cases ho
      have hne : id.index ≠ counter.index := fun heq => hid (congrArg CellId.mk heq)
      exact (Array.getElem?_setIfInBounds_ne hne).trans hv
  · exact silent (.ofExcept _) w

theorem perform (hev : ∀ form scope, (ev form scope).Counts global counter)
    (hcall : ∀ f args, (call f args).Counts global counter)
    (hcounted : ∀ f n extra, w.heap.CountsOn global f →
      (call f (.int n :: extra)).Goes global counter w fun v w' =>
        (∃ m : Int64, v = .int m ∧ n.toInt ≤ m.toInt) ∧ w'.heap.cells = w.heap.cells)
    (hleaves : w.heap.LeavesCounter global counter op args) :
    (perform ev op call args scope).CountsFrom global counter w := by
  unfold Recorded.perform
  cases hop : op.behaviour with
  | compute f => exact silent (.ofExcept _) w
  | act f => exact silent (Native.act_keepsCell hop hleaves.reset) w
  | call c =>
    cases c with
    | apply => exact runApply hcall w
    | map => exact runMap hcall w
    | swap =>
      have hswap : op = .swap := by cases op <;> cases hop; rfl
      exact runSwap hcall hcounted (hswap ▸ hleaves)
    | eval => exact runEval hev w

/-- Every native counts if evaluation one level deeper does. -/
theorem callNative {fuel levels : Nat}
    (hev : ∀ stack form scope, (evalWithin fuel levels stack form scope).Counts global counter)
    (count : Nat) (stack : CallStack) (op : Native) (args : List Value) (scope : ScopeId) :
    (callNative (evalWithin fuel levels) count stack op args scope).Counts global counter := by
  induction count generalizing stack op args scope with
  | zero => exact .silent .diverge
  | succ count ih =>
    refine calling _ (bind (.silent (.ofExcept _)) fun _ w => running fun hw hleaves => ?_)
    refine perform (hev _) (fun f args => ?_) (fun f n extra hf => ?_) hleaves
    · refine .bind ?_ fun v => .silent (.settle v)
      exact callWith (hev _) (fun op args => ih _ op args scope) f args
    · refine .bind (.counted hw hf _ extra) fun v w' hv => ?_
      obtain ⟨⟨m, rfl, hm⟩, -, hcells⟩ := hv
      exact .settle ⟨⟨m, rfl, by omega⟩, hcells⟩

end Calls

section SpecialForms

variable {ev : Recorder} {args : List Value}

theorem expand (hev : ∀ form scope, (ev form scope).Counts global counter) (fuel : Nat)
    (form : Value) : (expand ev fuel form scope).Counts global counter := by
  induction fuel generalizing form with
  | zero =>
    rw [Recorded.expand]
    refine .bind (.silent (.query _)) fun found => ?_
    cases found with
    | none => exact .pure form
    | some found => exact .silent .diverge
  | succ fuel ih =>
    rw [Recorded.expand]
    refine .bind (.silent (.query _)) fun found => ?_
    cases found with
    | none => exact .pure form
    | some found => exact .bind (callClosure hev found.1 found.2) ih

theorem runDefine (hev : ∀ form scope, (ev form scope).Counts global counter) (form : SpecialForm) :
    (runDefine ev form scope args).Counts global counter := by
  unfold Recorded.runDefine
  split
  · refine .bind (hev _ _) fun v => .bind (.silent ?_) fun v => ?_
    · split
      · unfold SpecialForm.toExpander
        split
        · refine .bind (.query _) fun c? => ?_
          cases c? with
          | none => exact .pure _
          | some c => exact .bind (.modifyGet fun _ => rfl) fun _ => .pure _
        · exact .pure _
      · exact .pure _
    · exact .bind (.silent (.modifyGet fun _ => rfl)) fun _ => .pure _
  · exact .silent (.raise _)
  · exact .silent (.raise _)

theorem bindAll (hev : ∀ form scope, (ev form scope).Counts global counter) (row : List Value) :
    (bindAll ev scope row).Counts global counter := by
  fun_induction Recorded.bindAll ev scope row with
  | case1 name expr more ih =>
    exact .bind (hev _ _) fun v => .bind (.silent (.modifyGet fun _ => rfl)) fun _ => ih
  | case2 => exact .silent (.raise _)
  | case3 => exact .pure _

theorem runLetIn (hev : ∀ form scope, (ev form scope).Counts global counter) :
    (runLetIn ev scope args).Counts global counter := by
  unfold Recorded.runLetIn
  split
  · split
    · exact .silent (.raise _)
    · split
      · exact .silent (.raise _)
      · refine .bind (.silent (.modifyGet fun _ => rfl)) fun inner => ?_
        exact .bind (bindAll hev _) fun _ => .pure _
  · exact .silent (.raise _)

theorem runSequence (hev : ∀ form scope, (ev form scope).Counts global counter) :
    (runSequence ev scope args).Counts global counter := by
  fun_induction Recorded.runSequence ev scope args with
  | case1 => exact .pure _
  | case2 => exact .pure _
  | case3 form next more ih => exact .bind (hev _ _) fun _ => ih

theorem runChoice (hev : ∀ form scope, (ev form scope).Counts global counter) :
    (runChoice ev scope args).Counts global counter := by
  unfold Recorded.runChoice
  split
  · exact .bind (hev _ _) fun _ => .pure _
  · exact .bind (hev _ _) fun _ => .pure _
  · exact .silent (.raise _)

theorem runHandle (hev : ∀ form scope, (ev form scope).Counts global counter) :
    (runHandle ev scope args).Counts global counter := by
  unfold Recorded.runHandle
  split
  · exact .pure _
  · split
    · exact .silent (.raise _)
    · refine .bind (.attempt (hev _ _)) fun result => ?_
      cases result with
      | ok v => exact .pure _
      | error fault => exact .bind (.silent (.modifyGet fun _ => rfl)) fun _ => .pure _
  · exact .silent (.raise _)

theorem runFunction : (Recorded.silent (SpecialForm.runFunction scope args)).Counts global counter := by
  refine .silent ?_
  unfold SpecialForm.runFunction
  split
  · split
    · exact .raise _
    · exact .bind (.modifyGet fun _ => rfl) fun _ => .pure _
  · exact .raise _

theorem runForm (hev : ∀ form scope, (ev form scope).Counts global counter) (form : SpecialForm)
    (fuel : Nat) : (runForm ev form fuel scope args).Counts global counter := by
  cases form with
  | define => exact runDefine hev _
  | defineExpander => exact runDefine hev _
  | letIn => exact runLetIn hev
  | sequence => exact runSequence hev
  | choice => exact runChoice hev
  | function => exact runFunction
  | quote | quasiquote =>
    simp only [Recorded.runForm]
    split
    · exact .pure _
    · exact .silent (.raise _)
  | expansion =>
    simp only [Recorded.runForm]
    split
    · exact .bind (expand hev fuel _) fun _ => .pure _
    · exact .silent (.raise _)
  | handle => exact runHandle hev

end SpecialForms

section Evaluation

variable {fuel levels : Nat} {stack : CallStack}

theorem evalPlain {ev : Recorder} (hev : ∀ form scope, (ev form scope).Counts global counter)
    (form : Value) : (evalPlain ev form scope).Counts global counter := by
  unfold Recorded.evalPlain
  split
  · exact .silent (.bind (.query _) fun _ => .ofExcept _)
  · exact .bind (.each (fun item => hev _ _) _) fun _ => .pure _
  · exact .bind (.each (fun e => .bind (hev _ _) fun _ => .pure _) _) fun _ => .pure _
  · exact .pure _

theorem evalCall
    (hev : ∀ stack form scope, (evalWithin fuel levels stack form scope).Counts global counter)
    (forms : List Value) :
    (evalCall (evalWithin fuel levels) fuel stack forms scope).Counts global counter := by
  have hfails (v : Value) : (Recorded.silent (v.notCallable : Run Step)).Counts global counter :=
    .silent (.bind (.query _) fun _ => .raise _)
  refine .bind (.each (fun form => hev stack form scope) forms) fun vs => ?_
  match vs with
  | [] => exact .pure _
  | .native op note :: args => exact .bind (callNative hev fuel stack op args scope) fun _ => .pure _
  | .fn id expander note :: args =>
    refine .bind (.silent (.query _)) fun c? => ?_
    cases c? with
    | none => exact hfails _
    | some c => exact .bind (.silent (.modifyGet fun _ => rfl)) fun _ => .pure _
  | .nil :: _ | .bool _ :: _ | .int _ :: _ | .str _ :: _ | .sym _ :: _ | .kw _ :: _ | .list .. :: _
  | .vec .. :: _ | .map .. :: _ | .atom .. :: _ | .error .. :: _ | .caught .. :: _ => exact hfails _

theorem evalStep
    (hev : ∀ stack form scope, (evalWithin fuel levels stack form scope).Counts global counter)
    (form : Value) :
    (evalStep (evalWithin fuel levels) fuel stack form scope).Counts global counter := by
  refine .bind (expand (hev stack) fuel form) fun expanded => ?_
  unfold Recorded.evalExpanded
  split
  · split
    · exact runForm (hev stack) _ fuel
    · exact evalCall hev _
  · exact .bind (evalPlain (hev stack) _) fun _ => .pure _

/-- A call of `gensym` generates the next name, and all else generates what its parts do. -/
theorem stepping {m : Recorded Value} {form : Value} (h : m.Counts global counter)
    (hgensym : form = Definition.gensym.body → w.heap.HasGensym global counter →
      w.heap.Bare global scope → ∀ n, w.heap.Holds counter (.int n) →
      m.Goes global counter w fun v w' => ∃ k : Int64, v = .sym (gensymName k) ∧
        k.toInt = n.toInt + 1 ∧ w.Apart counter w' ∧ w'.heap.Holds counter (.int k)) :
    (stepping form scope m).CountsFrom global counter w := by
  intro n hheld hfair
  obtain ⟨hw, hfair⟩ := List.forall_mem_cons.mp hfair
  obtain ⟨hfair, -⟩ := List.forall_mem_append.mp hfair
  obtain ⟨n', hnames, hends⟩ := h w n hheld hfair
  by_cases hcall : form = Definition.gensym.body ∧ w.heap.Bare global scope
  · have hgoes := hgensym hcall.1 hw hcall.2 n hheld
    rw [generated_stepping, hgoes.nameless, List.nil_append]
    rcases ho : m.run.outcome w with _ | ⟨fault | v, w'⟩
    · exact ⟨n, .none (Int.le_refl _), fun r w' hr => by cases ho.symm.trans hr⟩
    · refine ⟨n', .none hnames.le, fun r w'' hr => ?_⟩
      cases ho.symm.trans hr
      exact hends _ _ ho
    · obtain ⟨k, rfl, hk, -, hheld'⟩ := hgoes.ends v w' ho
      refine ⟨k, ?_, fun r w'' hr => ?_⟩
      · simpa [afterwards, generated, Event.generated?, hcall] using Numbered.one hk
      · cases ho.symm.trans hr
        exact hheld'
  · rw [generated_stepping_other hcall]
    exact ⟨n', hnames, hends⟩

theorem evalSteps
    (hev : ∀ stack form scope, (evalWithin fuel levels stack form scope).Counts global counter)
    (steps : Nat) (form : Value) (scope : ScopeId) :
    (evalSteps (evalWithin fuel levels) fuel stack steps form scope).Counts global counter := by
  induction steps generalizing form scope with
  | zero => exact .silent .diverge
  | succ steps ih =>
    intro w
    refine stepping (.bind (evalStep hev form) fun step => ?_) fun hform hw hbare n hn => ?_
    · cases step with
      | done v => exact .silent (.settle v)
      | tail form scope => exact ih form scope
    · subst hform
      refine .bind (.gensym hw hbare hn) fun step w' hstep => ?_
      obtain ⟨v, rfl, hv⟩ := hstep
      exact .settle hv

/-- Evaluation counts, whatever is evaluated and wherever. -/
theorem evalWithin (fuel levels : Nat) (stack : CallStack) (form : Value) (scope : ScopeId) :
    (evalWithin fuel levels stack form scope).Counts global counter := by
  induction levels generalizing stack form scope with
  | zero => exact .silent (.raise .recursion)
  | succ levels ih => exact evalSteps ih fuel form scope

end Evaluation

end Recorded.Counts

end MiniLisp
