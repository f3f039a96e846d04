import MiniLisp.Proofs.Counting

namespace MiniLisp

open Value Run

/-- The session that begins with a new global scope passes through these events. Any form may be
evaluated, in any scope, evaluations may fail, and between them the surroundings may change. -/
inductive Session.Passes : ScopeId → List Event → World → Prop
  | start {fuel files input clock global w}
      (h : (newGlobal fuel).outcome (World.start files input clock) = some (.ok global, w)) :
      Passes global [] w
  | evaluate {global events w fuel form scope r w'} (before : Passes global events w)
      (h : (eval fuel form scope).outcome w = some (r, w')) :
      Passes global
        (events ++ (Recorded.evalWithin fuel maxEvalDepth [] form scope).events w) w'
  | outside {global events w w'} (before : Passes global events w) (h : w'.heap = w.heap) :
      Passes global events w'

section Overflow

variable {levels : Nat} {global scope : ScopeId} {counter : CellId} {w : World} {n : Int64}
  {note : Value}

/-- One cannot be added to the greatest integer. -/
theorem increment_overflows (levels : Nat)
    (hadd : w.heap.scopes.lookup scope "+" = some (.native .add note))
    (hx : w.heap.scopes.lookup scope "x" = some (.int Int64.maxValue)) :
    Evaluates (levels + 2) (ofList [.sym "+", .int 1, .sym "x"]) scope w
      (some (.error (Cause.overflow "+").fault, w)) :=
  .compute_error .add rfl rfl hadd (.cons (.int 1) (.cons (.symbol hx rfl) .nil)) rfl
    (Native.total_add _ _)

/-- Once the counter holds the greatest integer, a call of `gensym` fails, and the counter is left as it
was. -/
theorem gensym_overflows (levels : Nat) (h : w.heap.HasGensym global counter)
    (hbare : w.heap.Bare global scope) (hn : w.heap.Holds counter (.int Int64.maxValue)) :
    ∃ w', Evaluates (levels + 5) Definition.gensym.body scope w
      (some (.error (Cause.overflow "+").fault, w')) ∧ w'.heap.cells = w.heap.cells := by
  have hmeans := hbare.means h.names
  obtain ⟨_, hsymbol⟩ := hmeans.native .symbol (by decide)
  obtain ⟨_, hstr⟩ := hmeans.native .str (by decide)
  obtain ⟨_, hcounter⟩ := h.counter
  obtain ⟨w', hswap, -, hcells⟩ := counted_ends hmeans ((hbare.lookup _).trans hcounter) hn.eq
    fun hadd hx => increment_overflows levels hadd hx
  refine ⟨w', ?_, hcells _ rfl⟩
  have hfails : Evaluates (levels + 4) (ofList [.sym "str", .str "G__", ofList [.sym "swap!",
      .sym "*gensym-counter*", Definition.increment]]) scope w
      (some (.error (Cause.overflow "+").fault, w')) :=
    .part_error [.sym "str", .str "G__"] rfl rfl hstr (fun _ _ => Value.noConfusion)
      (.cons (.symbol hstr rfl) (.cons (.text "G__") .nil)) hswap
  exact .part_error [.sym "symbol"] rfl rfl hsymbol (fun _ _ => Value.noConfusion)
    (.cons (.symbol hsymbol rfl) .nil) hfails

end Overflow

section Calls

variable {fuel levels : Nat} {global scope : ScopeId} {counter : CellId} {w : World} {n : Int64}

theorem World.bare_newScope (hk : w.heap.Knows global) :
    (w.entered (some global) []).heap.Bare global (w.newScope (some global) []) :=
  Heap.get?_enter_new hk []

/-- All that happens is fair, and a run that ends well has generated the next name and no other. -/
structure Recorded.GeneratesNext (global : ScopeId) (counter : CellId) (n : Int64)
    (m : Recorded Value) (w : World) : Prop where
  fair : ∀ e ∈ m.events w, e.Fair global counter
  ends : ∀ v w', m.run.outcome w = some (.ok v, w') → ∃ k : Int64, k.toInt = n.toInt + 1 ∧
    generated global (m.events w) = [.sym (gensymName k)] ∧ v = .sym (gensymName k) ∧
    w.Apart counter w' ∧ w'.heap.Holds counter (.int k)

namespace Recorded.GeneratesNext

variable {form : Value}

theorem diverge : (silent Run.diverge).GeneratesNext global counter n w where
  fair _ he := by cases he
  ends _ _ ho := by cases ho

/-- After something that generates no name. -/
theorem after {α : Type} {m : Recorded α} {next : α → Recorded Value} {a : α} {w₁ : World}
    (hm : m.Goes global counter w fun b w' => b = a ∧ w' = w₁) (hapart : w.Apart counter w₁)
    (hnext : (next a).GeneratesNext global counter n w₁) :
    (m >>= next).GeneratesNext global counter n w := by
  refine ⟨List.forall_mem_append.mpr ⟨hm.fair, forall_mem_afterwards fun b w' ho => ?_⟩,
    fun v w' ho => ?_⟩
  · obtain ⟨rfl, rfl⟩ := hm.ends b w' ho
    exact hnext.fair
  · obtain ⟨b, w', hb, hv⟩ | ⟨fault, -, hfault⟩ := outcome_bind_some ho
    · obtain ⟨rfl, rfl⟩ := hm.ends b w' hb
      obtain ⟨k, hk, hnames, hvalue, hapart', hheld⟩ := hnext.ends v _ hv
      refine ⟨k, hk, (generated_append _ _ _).trans ?_, hvalue, hapart.trans hapart', hheld⟩
      rw [hm.nameless, List.nil_append, hb]
      exact hnames
    · cases hfault

/-- As a part of an evaluation that begins with another form. -/
theorem stepping {m : Recorded Value} (hw : w.heap.HasGensym global counter)
    (hform : form ≠ Definition.gensym.body) (hm : m.GeneratesNext global counter n w) :
    (stepping form scope m).GeneratesNext global counter n w := by
  refine ⟨fair_stepping hw hm.fair, fun v w' ho => ?_⟩
  rw [generated_stepping_other fun hbody => hform hbody.1]
  exact hm.ends v w' ho

/-- The evaluation of the body generates what it comes to. -/
theorem named {m : Recorded Value} (hw : w.heap.HasGensym global counter)
    (hbare : w.heap.Bare global scope)
    (hm : m.Goes global counter w fun v w' => ∃ k : Int64, v = .sym (gensymName k) ∧
      k.toInt = n.toInt + 1 ∧ w.Apart counter w' ∧ w'.heap.Holds counter (.int k)) :
    (Recorded.stepping Definition.gensym.body scope m).GeneratesNext global counter n w := by
  refine ⟨fair_stepping hw hm.fair, fun v w' ho => ?_⟩
  obtain ⟨k, rfl, hk, hapart, hheld⟩ := hm.ends v w' ho
  refine ⟨k, hk, ?_, rfl, hapart, hheld⟩
  rw [generated_stepping, hm.nameless, show m.run.outcome w = _ from ho]
  simp [afterwards, generated, Event.generated?, hbare]

theorem body (hw : w.heap.HasGensym global counter) (hbare : w.heap.Bare global scope)
    (hn : w.heap.Holds counter (.int n)) (stack : CallStack) (steps : Nat) :
    (evalSteps (evalWithin fuel levels) fuel stack steps Definition.gensym.body scope).GeneratesNext global
      counter n w := by
  cases steps with
  | zero => exact diverge
  | succ steps =>
    refine named hw hbare (.bind (.gensym hw hbare hn) fun step w' hstep => ?_)
    obtain ⟨v, rfl, hv⟩ := hstep
    exact .settle hv

/-- What is recorded of a call without arguments. -/
theorem call (fuel levels : Nat) (stack : CallStack) (hw : w.heap.HasGensym global counter)
    (hscope : w.heap.scopes.lookup scope "gensym" = w.heap.scopes.lookup global "gensym")
    (hn : w.heap.Holds counter (.int n)) :
    (evalWithin fuel levels stack (ofList [.sym "gensym"]) scope).GeneratesNext global counter n w := by
  obtain ⟨id, hname, hclosure⟩ := hw.gensym
  have hgensym : w.heap.scopes.lookup scope "gensym" = some (.fn id false .nil) := hscope.trans hname
  let opened := w.entered (some global) []
  let inner := w.newScope (some global) []
  -- the first step goes on with the body in a scope of its own
  have hstep (levels : Nat) : (evalStep (evalWithin fuel levels) fuel (.evaluation :: stack)
      (ofList [.sym "gensym"]) scope).Goes global counter w
        fun step w' => step = .tail Definition.gensym.body inner ∧ w' = opened := by
    refine .step (Heap.expander?_of_lookup _ _ fun _ _ hfn => by cases hgensym.symm.trans hfn) ?_
    refine .bind (P := fun vs w' => vs = [.fn id false .nil] ∧ w' = w) ?_ ?_
    · refine .each_cons (P := fun v w' => v = .fn id false .nil ∧ w' = w)
        (.symbol hw hgensym ⟨rfl, rfl⟩) ?_
      rintro _ _ ⟨rfl, rfl⟩
      exact .each_nil ⟨rfl, rfl⟩
    · rintro _ _ ⟨rfl, rfl⟩
      refine .known (outcome_query _ _) ?_
      simp only [hclosure]
      exact .known (outcome_enter _ _ _) (.pure ⟨rfl, rfl⟩)
  cases levels with
  | zero => exact ⟨fun _ he => (by cases he), fun _ _ ho => by cases ho⟩
  | succ levels =>
    change (evalSteps (evalWithin fuel levels) fuel _ fuel _ scope).GeneratesNext global counter n w
    cases hfuel : fuel with
    | zero => exact diverge
    | succ steps =>
      subst hfuel
      refine stepping hw (by simp [Definition.gensym, ofList]) (after (hstep levels) ?_ ?_)
      · exact (World.Apart.refl counter w).entered _ _
      · exact body (hw.entered _ _) (World.bare_newScope hw.names.known) hn _ steps

end Recorded.GeneratesNext

/-- A call that comes to the next name generates it and nothing else. -/
theorem Heap.HasGensym.generates (levels : Nat) {m : Int64} (h : w.heap.HasGensym global counter)
    (hscope : w.heap.scopes.lookup scope "gensym" = w.heap.scopes.lookup global "gensym")
    (hn : w.heap.Holds counter (.int n)) (hm : m.toInt = n.toInt + 1) :
    ∃ w' least, w'.heap.HasGensym global counter ∧ w'.heap.Holds counter (.int m) ∧
      ∀ fuel ≥ least,
        (MiniLisp.evalWithin fuel (levels + 5) (ofList [.sym "gensym"]) scope).outcome w =
          some (.ok (.sym (gensymName m)), w') ∧
        (∀ e ∈ (Recorded.evalWithin fuel (levels + 5) [] (ofList [.sym "gensym"]) scope).events w,
          e.Fair global counter) ∧
        generated global
          ((Recorded.evalWithin fuel (levels + 5) [] (ofList [.sym "gensym"]) scope).events w) =
            [.sym (gensymName m)] := by
  obtain ⟨w', ⟨least, hends⟩, hapart⟩ := h.gives levels hscope hn.eq hm
  have hrecorded (fuel : Nat) (hfuel : fuel ≥ least) :
      generated global
        ((Recorded.evalWithin fuel (levels + 5) [] (ofList [.sym "gensym"]) scope).events w) =
          [.sym (gensymName m)] ∧ w'.heap.Holds counter (.int m) := by
    obtain ⟨k, -, hnames, hname, -, hholds⟩ :=
      (Recorded.GeneratesNext.call fuel (levels + 5) [] h hscope hn).ends _ _
        ((Recorded.outcome_evalWithin fuel _ [] _ _ w).trans (hends fuel hfuel))
    obtain rfl := gensymName_injective (Value.sym.inj hname)
    exact ⟨hnames, hholds⟩
  exact ⟨w', least, h.apart hapart, (hrecorded least (Nat.le_refl _)).2, fun fuel hfuel =>
    ⟨hends fuel hfuel, (Recorded.GeneratesNext.call fuel _ [] h hscope hn).fair,
      (hrecorded fuel hfuel).1⟩⟩

end Calls

section Repetition

variable {global scope : ScopeId} {w : World} {note v : Value}

/-- An expander that makes `fn*` stand for `nil?`. -/
def Definition.nilFunction : Definition :=
  ⟨true, "fn*", ["&", "xs"], .sym "nil?"⟩

/-- All that is given is there, but `fn*` is an expander. -/
structure Heap.Misled (heap : Heap) (global : ScopeId) : Prop where
  unrebound : heap.Unrebound global
  function : heap.Defines global Definition.nilFunction
  counter : heap.scopes.lookup global "*gensym-counter*" = some (.atom ⟨0⟩ .nil)
  counted : ∃ v, heap.Holds ⟨0⟩ v ∧ v ≠ .nil

/-- In a scope in which nothing is bound the function to count on with is the native. -/
theorem Heap.Misled.gives_increment (levels : Nat) (h : w.heap.Misled global)
    (hbare : w.heap.Bare global scope) :
    ∃ w', Gives (levels + 2) Definition.increment scope w (.native .isNil .nil) w' ∧
      w.Apart ⟨0⟩ w' ∧ w'.heap.cells = w.heap.cells := by
  obtain ⟨id, hname, hclosure⟩ := h.function
  let args : List Value := [.vec [.sym "x"] .nil, ofList [.sym "+", .int 1, .sym "x"]]
  let bindings := bindParams [] ["&", "xs"] args
  have hnil : (w.entered (some global) bindings).heap.scopes.lookup
      (w.newScope (some global) bindings) "nil?" = some (.native .isNil .nil) :=
    (World.lookup_newScope (Heap.knows_of_lookup hname) bindings "nil?").trans
      (h.unrebound.native .isNil)
  refine ⟨w.entered (some global) bindings, ?_, (World.Apart.refl ⟨0⟩ w).entered _ _, rfl⟩
  exact .expander (expander?_of_closure ((hbare.lookup "fn*").trans hname) hclosure args)
    (.symbol hnil rfl) (.of_done rfl ⟨0, fun _ _ => rfl⟩ rfl)

theorem Heap.Misled.apart {w' : World} (h : w.heap.Misled global) (hapart : w.Apart ⟨0⟩ w')
    (hcounted : ∃ v, w'.heap.Holds ⟨0⟩ v ∧ v ≠ .nil) : w'.heap.Misled global := by
  have hk := Heap.knows_of_lookup h.counter
  have hretains : w.heap.Retains global givenNames w'.heap :=
    ⟨fun name _ => hapart.lookup hk name, hapart.closures⟩
  refine ⟨h.unrebound.retained hretains, ?_, (hapart.lookup hk _).trans h.counter, hcounted⟩
  obtain ⟨id, hname, hclosure⟩ := h.function
  exact ⟨id, (hapart.lookup hk _).trans hname, hapart.closures _ _ hclosure⟩

/-- Asked for `nil`, the native stores false in an atom that holds something else. -/
theorem swap_isNil {ev : Evaluator} {fuel : Nat} {cell : CellId} (hheld : w.heap.Holds cell v)
    (hv : v ≠ .nil) :
    (Native.call ev (fuel + 2) .swap [.atom cell note, .native .isNil .nil] scope).outcome w =
      some (.ok (.bool false), { w with heap := w.heap.setCell cell (.bool false) }) := by
  refine Native.swap_ok rfl ?_
  rw [hheld.eq]
  cases v <;> first | rfl | exact absurd rfl hv

/-- The same name again and again. -/
theorem Heap.Misled.gives (levels : Nat) (h : w.heap.Misled global) :
    ∃ w', Gives (levels + 5) (ofList [.sym "gensym"]) global w (.sym "G__false") w' ∧
      w.Apart ⟨0⟩ w' ∧ w'.heap.Misled global := by
  have hk := Heap.knows_of_lookup h.counter
  have hgensym := h.unrebound.defines Definition.gensym (by simp [Definition.late])
  let opened := w.entered (some global) []
  let inner := w.newScope (some global) []
  have hopened : w.Apart ⟨0⟩ opened := (World.Apart.refl ⟨0⟩ w).entered _ _
  have hmisled : opened.heap.Misled global := h.apart hopened h.counted
  have hbare : opened.heap.Bare global inner := World.bare_newScope hk
  have hmeans : opened.heap.Means inner [.symbol, .str, .swap] [] :=
    hbare.means (hmisled.unrebound.means _ _ fun _ hform => by cases hform)
  obtain ⟨_, hswap⟩ := hmeans.native .swap (by decide)
  obtain ⟨w', hfunction, hapart, hcells⟩ := hmisled.gives_increment levels hbare
  obtain ⟨v, hheld, hv⟩ := h.counted
  have hheld' : w'.heap.Holds ⟨0⟩ v := hheld.of_cells hcells
  have hcounter := (hbare.lookup "*gensym-counter*").trans hmisled.counter
  have hswapped : Gives (levels + 3) (ofList [.sym "swap!", .sym "*gensym-counter*",
      Definition.increment]) inner opened (.bool false) _ :=
    .native .swap rfl hswap (.cons (.symbol hcounter rfl) (.cons hfunction .nil))
      ⟨2, fun fuel hfuel => by
        obtain ⟨fuel, rfl⟩ := Nat.exists_eq_add_of_le' hfuel
        exact swap_isNil hheld' hv⟩ rfl
  have hcounting := (hopened.trans hapart).counting (.bool false)
  exact ⟨_, gives_gensym hgensym rfl (gives_named hmeans hswapped), hcounting,
    h.apart hcounting ⟨.bool false, hheld'.setCell _, Value.noConfusion⟩⟩

end Repetition

namespace Session

variable {fuel : Nat} {global scope : ScopeId} {w : World} {events : List Event} {form : Value}

theorem counter_of_newGlobal {files : Files} {input : String} {clock : Int64}
    (h : (newGlobal fuel).outcome (World.start files input clock) = some (.ok global, w)) :
    w.heap.Holds ⟨0⟩ (.int 0) := by
  have hcounted := (newGlobal_hasPrelude h).counted
  cases hheld : w.heap.cells[0]? with
  | none => simp [Heap.cell, hheld] at hcounted
  | some v =>
    simp only [Heap.cell, hheld, Option.getD_some] at hcounted
    exact hheld.trans (congrArg some hcounted)

/-- The names that were generated in a session are numbered up to what the counter holds. -/
theorem Passes.numbered (h : Passes global events w)
    (hfair : ∀ e ∈ events, e.Fair global ⟨0⟩) :
    ∃ n, Numbered 0 (generated global events) n ∧ w.heap.Holds ⟨0⟩ (.int n) := by
  induction h with
  | start h => exact ⟨0, .none (Int.le_refl _), counter_of_newGlobal h⟩
  | @evaluate global events w fuel form scope r w' before h ih =>
    obtain ⟨hbefore, hduring⟩ := List.forall_mem_append.mp hfair
    obtain ⟨n, hnames, hheld⟩ := ih hbefore
    obtain ⟨n', hnames', hends⟩ :=
      Recorded.Counts.evalWithin fuel maxEvalDepth [] form scope w n hheld hduring
    refine ⟨n', ?_, hends r w' ?_⟩
    · exact (generated_append _ _ _).symm ▸ hnames.append hnames'
    · exact (Recorded.outcome_evalWithin fuel maxEvalDepth [] form scope w).trans h
  | outside before h ih => exact h ▸ ih hfair

/-- Names are never repeated: what all calls of `gensym` come to in a session and in an evaluation
after it, which need not end, are names with different numbers. Once the counter holds the greatest
integer, a call fails. -/
theorem generated_names_distinct (h : Passes global events w)
    (hfair : ∀ e ∈ events ++ (Recorded.evalWithin fuel maxEvalDepth [] form scope).events w,
      e.Fair global ⟨0⟩) :
    (generated global
      (events ++ (Recorded.evalWithin fuel maxEvalDepth [] form scope).events w)).Nodup ∧
    (∀ v ∈ generated global
        (events ++ (Recorded.evalWithin fuel maxEvalDepth [] form scope).events w),
      ∃ k : Int64, 0 < k.toInt ∧ v = .sym (gensymName k)) ∧
    ∀ levels inner w', w'.heap.HasGensym global ⟨0⟩ → w'.heap.Bare global inner →
      w'.heap.Holds ⟨0⟩ (.int Int64.maxValue) →
      ∃ w'', Evaluates (levels + 5) Definition.gensym.body inner w'
        (some (.error (Cause.overflow "+").fault, w'')) ∧ w''.heap.cells = w'.heap.cells := by
  obtain ⟨hbefore, hduring⟩ := List.forall_mem_append.mp hfair
  obtain ⟨n, hnames, hheld⟩ := h.numbered hbefore
  obtain ⟨n', hnames', -⟩ :=
    Recorded.Counts.evalWithin fuel maxEvalDepth [] form scope w n hheld hduring
  have hall := hnames.append hnames'
  rw [← generated_append] at hall
  exact ⟨hall.nodup, fun v hv => hall.number hv, fun levels _ _ => gensym_overflows levels⟩

/-- In a new session two calls generate two names. -/
theorem generated_names_distinct_twice :
    ∃ global w fuel w', (newGlobal 1).outcome (World.start Files.empty "" 0) = some (.ok global, w) ∧
      let record w := (Recorded.evalWithin fuel maxEvalDepth [] (ofList [.sym "gensym"]) global).events w
      Passes global ([] ++ record w) w' ∧
        (∀ e ∈ ([] ++ record w) ++ record w', e.Fair global ⟨0⟩) ∧
        generated global (([] ++ record w) ++ record w') = [.sym "G__1", .sym "G__2"] ∧
        (generated global (([] ++ record w) ++ record w')).Nodup := by
  obtain ⟨global, w, hnew, -⟩ := newGlobal_makes 0 Files.empty "" 0
  have hgensym := (newGlobal_hasPrelude hnew).hasGensym
  obtain ⟨w', least, hgensym', hheld', hfirst⟩ :=
    hgensym.generates 195 rfl (counter_of_newGlobal hnew) (show (1 : Int64).toInt = _ from rfl)
  obtain ⟨w'', least', -, -, hsecond⟩ :=
    hgensym'.generates 195 rfl hheld' (show (2 : Int64).toInt = _ from rfl)
  obtain ⟨hends, hfair, hnames⟩ := hfirst (max least least') (Nat.le_max_left _ _)
  obtain ⟨-, hfair', hnames'⟩ := hsecond (max least least') (Nat.le_max_right _ _)
  have hpasses := Passes.evaluate (.start hnew) hends
  have hall := List.forall_mem_append.mpr ⟨hfair, hfair'⟩
  refine ⟨global, w, max least least', w', hnew, hpasses, hall, ?_,
    (generated_names_distinct hpasses hall).1⟩
  exact (generated_append _ _ _).trans (congrArg₂ _ hnames hnames')

/-- The names in its definition are not all that `gensym` rests on: once `fn*` is an expander in the
global scope that makes another function to count on with, the same name comes again. -/
theorem generated_names_rest_on_forms :
    ∃ global w v w' w₁ w₂, (newGlobal 1).outcome (World.start Files.empty "" 0) =
        some (.ok global, w) ∧
      (evalText 1 "(defmacro! fn* (fn* (& xs) nil?))" global).outcome w = some (.ok (some v), w') ∧
      w'.heap.Unrebound global ∧
      w'.heap.scopes.lookup global "*gensym-counter*" = some (.atom ⟨0⟩ .nil) ∧
      w'.heap.Holds ⟨0⟩ (.int 0) ∧
      Gives maxEvalDepth (ofList [.sym "gensym"]) global w' (.sym "G__false") w₁ ∧
      w'.Apart ⟨0⟩ w₁ ∧
      Gives maxEvalDepth (ofList [.sym "gensym"]) global w₁ (.sym "G__false") w₂ := by
  obtain ⟨global, w, hnew, -⟩ := newGlobal_makes 0 Files.empty "" 0
  have hprelude := newGlobal_hasPrelude hnew
  have hread : Prelude.Reads "(defmacro! fn* (fn* (& xs) nil?))" Definition.nilFunction := by
    refine read_of_tokens rfl ?_
    with_unfolding_all rfl
  obtain ⟨⟨v, hdefined⟩, hunrebound, hfunction, -⟩ :=
    evalText_beside hprelude (by decide) hread (by decide +kernel)
  have hbeside : w.Defined (w.defining global .nilFunction) global .nilFunction ["*gensym-counter*"] :=
    World.defined hprelude.global hread.clean (by decide)
  have hcounter := (hbeside.retains.names _ List.mem_cons_self).trans hprelude.counter
  have hheld := (counter_of_newGlobal hnew).of_cells hbeside.cells
  have hmisled : (w.defining global .nilFunction).heap.Misled global :=
    ⟨hunrebound, hfunction, hcounter, .int 0, hheld, Value.noConfusion⟩
  obtain ⟨w₁, hfirst, hapart, hmisled'⟩ := hmisled.gives 195
  obtain ⟨w₂, hsecond, -⟩ := hmisled'.gives 195
  exact ⟨global, w, v, _, w₁, w₂, hnew, hdefined, hunrebound, hcounter, hheld, hfirst, hapart, hsecond⟩

end Session
end MiniLisp
