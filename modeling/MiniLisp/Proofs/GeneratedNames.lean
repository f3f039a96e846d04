import MiniLisp.Proofs.Arithmetic
import MiniLisp.Proofs.Gensym
import MiniLisp.Proofs.Printing
import MiniLisp.Proofs.Recording

namespace MiniLisp

open Value Run

theorem gensymName_injective {n m : Int64} (h : gensymName n = gensymName m) : n = m := by
  have hchars : Decimal.render n.toInt = Decimal.render m.toInt :=
    List.append_cancel_left (String.ofList_injective h)
  have hparsed := congrArg Decimal.parse? hchars
  rw [Decimal.parse?_render, Decimal.parse?_render] at hparsed
  exact Int64.toInt_inj.mp (Option.some.inj hparsed)

/-- The values are names whose numbers rise, each above the first number and none above the last one. -/
inductive Numbered : Int64 → List Value → Int64 → Prop
  | none {n m} (h : n.toInt ≤ m.toInt) : Numbered n [] m
  | next {n k m vs} (h : n.toInt < k.toInt) (rest : Numbered k vs m) :
      Numbered n (.sym (gensymName k) :: vs) m

namespace Numbered

variable {n m l : Int64} {vs vs' : List Value} {v : Value}

theorem le (h : Numbered n vs m) : n.toInt ≤ m.toInt := by
  induction h with
  | none h => exact h
  | next h rest ih => omega

theorem one (h : m.toInt = n.toInt + 1) : Numbered n [.sym (gensymName m)] m :=
  .next (by omega) (.none (Int.le_refl _))

theorem after (h : Numbered m vs l) (hle : n.toInt ≤ m.toInt) : Numbered n vs l := by
  cases h with
  | none h => exact .none (by omega)
  | next h rest => exact .next (by omega) rest

theorem append (h : Numbered n vs m) (h' : Numbered m vs' l) : Numbered n (vs ++ vs') l := by
  induction h with
  | none h => exact h'.after h
  | next h rest ih => exact .next h (ih h')

theorem number (h : Numbered n vs m) (hv : v ∈ vs) :
    ∃ k : Int64, n.toInt < k.toInt ∧ v = .sym (gensymName k) := by
  induction h with
  | none => cases hv
  | @next n k m vs h rest ih =>
    rcases List.mem_cons.mp hv with rfl | hv
    · exact ⟨k, h, rfl⟩
    · obtain ⟨k', hk', rfl⟩ := ih hv
      exact ⟨k', by omega, rfl⟩

/-- Names with different numbers are different. -/
theorem nodup (h : Numbered n vs m) : vs.Nodup := by
  induction h with
  | none => exact List.nodup_nil
  | @next n k m vs h rest ih =>
    refine List.nodup_cons.mpr ⟨fun hmem => ?_, ih⟩
    obtain ⟨k', hk', heq⟩ := rest.number hmem
    rw [gensymName_injective (Value.sym.inj heq)] at hk'
    exact Int.lt_irrefl _ hk'

end Numbered

/-- A scope inside the global one in which nothing is bound, like that of a call without parameters. -/
def Heap.Bare (heap : Heap) (global scope : ScopeId) : Prop :=
  heap.scopes.get? scope = some ⟨[], some global⟩

open Classical in
/-- What a call of `gensym` has come to: its body is evaluated in a scope of its own. -/
noncomputable def Event.generated? (global : ScopeId) : Event → Option Value
  | .value form scope w v =>
    if form = Definition.gensym.body ∧ w.heap.Bare global scope then some v else none
  | _ => none

/-- What the calls of `gensym` have come to, one after the other. -/
noncomputable def generated (global : ScopeId) (events : List Event) : List Value :=
  events.filterMap (Event.generated? global)

theorem generated_append (global : ScopeId) (before after : List Event) :
    generated global (before ++ after) = generated global before ++ generated global after :=
  List.filterMap_append

theorem generated_afterwards {α : Type} {global : ScopeId} {next : α → World → List Event}
    {ending : Option (Except Fault α × World)}
    (h : ∀ a w, ending = some (.ok a, w) → generated global (next a w) = []) :
    generated global (Recorded.afterwards next ending) = [] := by
  rcases ending with _ | ⟨fault | a, w⟩
  · rfl
  · rfl
  · exact h a w rfl

/-- What a step generates besides what happens in the run from it on. -/
theorem generated_stepping (global scope : ScopeId) (form : Value) (m : Recorded Value) (w : World) :
    generated global ((Recorded.stepping form scope m).events w) = generated global (m.events w) ++
      generated global (Recorded.afterwards (fun v _ => [.value form scope w v]) (m.run.outcome w)) :=
  generated_append global _ _

/-- The step of anything but the body of `gensym` in a scope of its own generates nothing besides. -/
theorem generated_stepping_other {global scope : ScopeId} {form : Value} {m : Recorded Value}
    {w : World} (h : ¬ (form = Definition.gensym.body ∧ w.heap.Bare global scope)) :
    generated global ((Recorded.stepping form scope m).events w) = generated global (m.events w) := by
  rw [generated_stepping, generated_afterwards fun _ _ _ => ?_, List.append_nil]
  simp [generated, Event.generated?, h]

/-- The atom holds the value. -/
def Heap.Holds (heap : Heap) (cell : CellId) (v : Value) : Prop :=
  heap.cells[cell.index]? = some v

namespace Heap.Holds

variable {heap heap' : Heap} {cell : CellId} {v : Value}

theorem eq (h : heap.Holds cell v) : heap.cell cell = v :=
  (congrArg (·.getD .nil) h).trans (Option.getD_some ..)

theorem of_cells (h : heap.Holds cell v) (hcells : heap'.cells = heap.cells) : heap'.Holds cell v :=
  (congrArg (·[cell.index]?) hcells).trans h

theorem setCell (h : heap.Holds cell v) (v' : Value) : (heap.setCell cell v').Holds cell v' :=
  Array.getElem?_setIfInBounds_self_of_lt (Array.getElem?_eq_some_iff.mp h).1

end Heap.Holds

/-- The function that `gensym` counts on with, made in a scope of a call without parameters. -/
def Heap.CountsOn (heap : Heap) (global : ScopeId) (f : Value) : Prop :=
  ∃ id expander note scope, f = .fn id expander note ∧ heap.Bare global scope ∧
    heap.closure? id = some ⟨["x"], ofList [.sym "+", .int 1, .sym "x"], scope⟩

/-- The native does not write the counter, unless it counts on as `gensym` does. -/
structure Heap.LeavesCounter (heap : Heap) (global : ScopeId) (counter : CellId) (op : Native)
    (args : List Value) : Prop where
  reset : op = .reset → ∀ note v, args ≠ [.atom counter note, v]
  swap : op = .swap → ∀ note f extra, args = .atom counter note :: f :: extra →
    heap.CountsOn global f

/-- Where something happens, `gensym` and the names in its definition mean what they say, and its counter
is left to it. -/
def Event.Fair (global : ScopeId) (counter : CellId) : Event → Prop
  | .step _ _ w => w.heap.HasGensym global counter
  | .native op args _ w => w.heap.HasGensym global counter ∧ w.heap.LeavesCounter global counter op args
  | .call _ | .value .. => True

variable {α β : Type} {global scope : ScopeId} {counter : CellId} {w : World}

theorem Heap.HasGensym.apart {w' : World} (h : w.heap.HasGensym global counter)
    (hapart : w.Apart counter w') : w'.heap.HasGensym global counter where
  names := h.names.transfer (hapart.knows h.names.known) fun name _ => hapart.lookup h.names.known name
  gensym := by
    obtain ⟨id, hname, hclosure⟩ := h.gensym
    exact ⟨id, (hapart.lookup h.names.known _).trans hname, hapart.closures _ _ hclosure⟩
  counter := by
    obtain ⟨note, hcounter⟩ := h.counter
    exact ⟨note, (hapart.lookup h.names.known _).trans hcounter⟩

theorem Heap.Bare.knows {heap : Heap} (h : heap.Bare global scope) : heap.Knows scope :=
  Heap.knows_iff.mpr ⟨_, h⟩

/-- In a scope in which nothing is bound all names mean what they mean in the global one. -/
theorem Heap.Bare.lookup {heap : Heap} (h : heap.Bare global scope) (name : String) :
    heap.scopes.lookup scope name = heap.scopes.lookup global name := by
  rw [Scopes.lookup_of_get? h]
  rfl

theorem Heap.Bare.means {heap : Heap} (h : heap.Bare global scope) {natives : List Native}
    {forms : List SpecialForm} (hmeans : heap.Means global natives forms) :
    heap.Means scope natives forms :=
  hmeans.transfer h.knows fun name _ => h.lookup name

theorem Recorded.fair_stepping {m : Recorded Value} {form : Value}
    (hw : w.heap.HasGensym global counter) (h : ∀ e ∈ m.events w, e.Fair global counter) :
    ∀ e ∈ (stepping form scope m).events w, e.Fair global counter := by
  refine List.forall_mem_cons.mpr ⟨hw, List.forall_mem_append.mpr ⟨h, ?_⟩⟩
  exact forall_mem_afterwards fun _ _ _ => List.forall_mem_singleton.mpr trivial

/-- From this world on all that happens is fair, no name is generated, and the run comes to what has the
property, if it comes to anything. -/
structure Recorded.Goes (global : ScopeId) (counter : CellId) (m : Recorded α) (w : World)
    (property : α → World → Prop) : Prop where
  fair : ∀ e ∈ m.events w, e.Fair global counter
  nameless : generated global (m.events w) = []
  ends : ∀ a w', m.run.outcome w = some (.ok a, w') → property a w'

namespace Recorded.Goes

variable {P : α → World → Prop} {Q : β → World → Prop}

theorem silent {run : Run α} (h : ∀ a w', run.outcome w = some (.ok a, w') → P a w') :
    (Recorded.silent run).Goes global counter w P where
  fair _ he := by cases he
  nameless := rfl
  ends := h

theorem pure {a : α} (h : P a w) : (Pure.pure a : Recorded α).Goes global counter w P := by
  refine silent fun a' w' ho => ?_
  cases ho
  exact h

theorem bind {m : Recorded α} {next : α → Recorded β} (h : m.Goes global counter w P)
    (hn : ∀ a w', P a w' → (next a).Goes global counter w' Q) :
    (m >>= next).Goes global counter w Q := by
  -- the rest of the run begins only where the first part has ended well
  refine ⟨List.forall_mem_append.mpr ⟨h.fair, forall_mem_afterwards fun a w' ho => ?_⟩, ?_,
    fun b w'' ho => ?_⟩
  · exact (hn a w' (h.ends a w' ho)).fair
  · refine (generated_append _ _ _).trans ?_
    rw [h.nameless, List.nil_append]
    exact generated_afterwards fun a w' ho => (hn a w' (h.ends a w' ho)).nameless
  · obtain ⟨a, w', ha, hb⟩ | ⟨fault, -, hfault⟩ := outcome_bind_some ho
    · exact (hn a w' (h.ends a w' ha)).ends b w'' hb
    · cases hfault

/-- How a run that is not recorded ends may be known. -/
theorem known {run : Run α} {next : α → Recorded β} {a : α} {w' : World}
    (h : run.outcome w = some (.ok a, w')) (hn : (next a).Goes global counter w' Q) :
    (Recorded.silent run >>= next).Goes global counter w Q := by
  refine .bind (P := fun b w'' => b = a ∧ w'' = w') (.silent fun b w'' ho => ?_) ?_
  · rw [h] at ho
    cases ho
    exact ⟨rfl, rfl⟩
  · rintro _ _ ⟨rfl, rfl⟩
    exact hn

theorem mono {P' : α → World → Prop} {m : Recorded α} (h : m.Goes global counter w P)
    (hP : ∀ a w', P a w' → P' a w') : m.Goes global counter w P' :=
  ⟨h.fair, h.nameless, fun a w' ho => hP a w' (h.ends a w' ho)⟩

theorem stepping {m : Recorded Value} {P : Value → World → Prop} {form : Value}
    (hw : w.heap.HasGensym global counter) (hform : form ≠ Definition.gensym.body)
    (h : m.Goes global counter w P) : (stepping form scope m).Goes global counter w P := by
  refine ⟨fair_stepping hw h.fair, ?_, h.ends⟩
  rw [generated_stepping_other fun hbody => hform hbody.1, h.nameless]

theorem calling {m : Recorded α} (stack : CallStack) (h : m.Goes global counter w P) :
    (calling stack m).Goes global counter w P :=
  ⟨List.forall_mem_cons.mpr ⟨trivial, h.fair⟩, h.nameless, h.ends⟩

theorem running {m : Recorded α} {op : Native} {args : List Value}
    (hw : w.heap.HasGensym global counter) (hleaves : w.heap.LeavesCounter global counter op args)
    (h : m.Goes global counter w P) : (running op args scope m).Goes global counter w P :=
  ⟨List.forall_mem_cons.mpr ⟨⟨hw, hleaves⟩, h.fair⟩, h.nameless, h.ends⟩

section Forms

variable {fuel levels steps : Nat} {ev : CallStack → Recorder} {stack : CallStack}
  {form note : Value} {name : String} {forms args : List Value} {op : Native}
  {V : Value → World → Prop} {S : Step → World → Prop} {L : List Value → World → Prop}

theorem settle {v : Value} (h : V v w) :
    (Recorded.silent (Run.settle v)).Goes global counter w V := by
  refine .silent fun v' w' ho => ?_
  cases v <;> cases ho <;> exact h

theorem ofExcept {result : Except Fault α} (h : ∀ a, result = .ok a → P a w) :
    (Recorded.silent (MonadExcept.ofExcept result)).Goes global counter w P := by
  refine .silent fun a w' ho => ?_
  obtain ⟨hresult, rfl⟩ := of_outcome_ofExcept ho
  exact h a hresult

theorem diverge : (Recorded.silent (Run.diverge : Run α)).Goes global counter w P :=
  .silent fun _ _ ho => by cases ho

/-- A form that is done after one step. -/
theorem evaluated (hw : w.heap.HasGensym global counter) (hform : form ≠ Definition.gensym.body)
    (h : ∀ levels, (evalStep (evalWithin fuel levels) fuel (.evaluation :: stack) form scope).Goes
      global counter w fun step w' => ∃ v, step = .done v ∧ V v w') :
    (evalWithin fuel levels stack form scope).Goes global counter w V := by
  cases levels with
  | zero => exact .silent fun _ _ ho => by cases ho
  | succ levels =>
    change (evalSteps _ fuel _ fuel form scope).Goes global counter w V
    cases hsteps : fuel with
    | zero => exact .diverge
    | succ steps =>
      refine .stepping hw hform (.bind (hsteps ▸ h levels) fun step w' hstep => ?_)
      obtain ⟨v, rfl, hv⟩ := hstep
      exact .settle hv

/-- A form that calls no expander. -/
theorem step (hsame : w.heap.expander? form scope = none)
    (h : (evalExpanded ev fuel stack form scope).Goes global counter w S) :
    (evalStep ev fuel stack form scope).Goes global counter w S := by
  refine .bind (P := fun expanded w' => expanded = form ∧ w' = w) ?_ ?_
  · rw [expand]
    refine .bind (P := fun found w' => found = none ∧ w' = w) (.silent fun found w' ho => ?_) ?_
    · cases ho
      exact ⟨hsame, rfl⟩
    · rintro _ _ ⟨rfl, rfl⟩
      exact .pure ⟨rfl, rfl⟩
  · rintro _ _ ⟨rfl, rfl⟩
    exact h

theorem symbol (hw : w.heap.HasGensym global counter) {v : Value}
    (hname : w.heap.scopes.lookup scope name = some v) (hv : V v w) :
    (evalWithin fuel levels stack (.sym name) scope).Goes global counter w V := by
  refine .evaluated hw Value.noConfusion fun levels => .step rfl (.bind (P := V) ?_ fun v w' hv => ?_)
  · refine .silent fun v' w' ho => ?_
    simp only [resolve, outcome_bind_ok _ (outcome_query _ w), Scopes.resolve, hname] at ho
    cases ho
    exact hv
  · exact .pure ⟨v, rfl, hv⟩

theorem int (hw : w.heap.HasGensym global counter) {n : Int64} (h : V (.int n) w) :
    (evalWithin fuel levels stack (.int n) scope).Goes global counter w V :=
  .evaluated hw Value.noConfusion fun _ =>
    .step rfl (.bind (.pure h) fun v _ hv => .pure ⟨v, rfl, hv⟩)

theorem text (hw : w.heap.HasGensym global counter) {s : String} (h : V (.str s) w) :
    (evalWithin fuel levels stack (.str s) scope).Goes global counter w V :=
  .evaluated hw Value.noConfusion fun _ =>
    .step rfl (.bind (.pure h) fun v _ hv => .pure ⟨v, rfl, hv⟩)

theorem each_nil {f : β → Recorded α} {L : List α → World → Prop} (h : L [] w) :
    (each f []).Goes global counter w L :=
  .pure h

theorem each_cons {f : β → Recorded α} {x : β} {xs : List β} {L : List α → World → Prop}
    (h : (f x).Goes global counter w P)
    (hrest : ∀ a w', P a w' → (each f xs).Goes global counter w' fun as => L (a :: as)) :
    (each f (x :: xs)).Goes global counter w L :=
  .bind h fun a w' ha => .bind (hrest a w' ha) fun _ _ h => .pure h

/-- A native with the right number of arguments does what it is there for. -/
theorem call (hw : w.heap.HasGensym global counter)
    (hleaves : w.heap.LeavesCounter global counter op args)
    (h : ∀ fuel stack, (perform (ev stack) op
      (fun f args => do
        Recorded.silent (Run.settle (← callWith (ev stack) (callNative ev fuel stack) f args scope)))
      args scope).Goes global counter w V) :
    (callNative ev fuel stack op args scope).Goes global counter w V := by
  cases fuel with
  | zero => exact .diverge
  | succ fuel =>
    refine .calling _ (.bind (P := fun _ w' => w' = w) (.ofExcept fun _ _ => rfl) ?_)
    rintro _ _ rfl
    exact .running hw hleaves (h fuel _)

theorem compute (hw : w.heap.HasGensym global counter) {f : List Value → Except Fault Value}
    (hf : op.behaviour = .compute f) (h : ∀ v, f args = .ok v → V v w) :
    (callNative ev fuel stack op args scope).Goes global counter w V := by
  have hleaves : w.heap.LeavesCounter global counter op args := by
    constructor
    all_goals
      rintro rfl
      cases hf
  refine .call hw hleaves fun fuel stack => ?_
  simp only [perform, hf]
  exact .ofExcept h

/-- The step of a form that calls a native. -/
theorem native (op : Native) (hw : w.heap.HasGensym global counter)
    (hhead : SpecialForm.ofName? op.name = none)
    (hname : w.heap.scopes.lookup scope op.name = some (.native op note))
    (hparts : (each (fun form => evalWithin fuel levels stack form scope) forms).Goes global counter w L)
    (hcall : ∀ args w', L args w' →
      (callNative (evalWithin fuel levels) fuel stack op args scope).Goes global counter w' V) :
    (evalStep (evalWithin fuel levels) fuel stack (ofList (.sym op.name :: forms)) scope).Goes global
      counter w fun step w' => ∃ v, step = .done v ∧ V v w' := by
  have hsame : w.heap.expander? (ofList (.sym op.name :: forms)) scope = none := by
    refine Heap.expander?_of_lookup forms .nil fun id note hfn => ?_
    cases hname.symm.trans hfn
  refine .step hsame ?_
  have hheading : (SpecialForm.symbolName? (.sym op.name)).bind SpecialForm.ofName? = none := hhead
  simp only [ofList, evalExpanded, hheading]
  refine .bind (P := fun vs w' => ∃ args, vs = .native op note :: args ∧ L args w') ?_ ?_
  · refine .each_cons (P := fun v w' => v = .native op note ∧ w' = w)
      (.symbol hw hname ⟨rfl, rfl⟩) ?_
    rintro _ _ ⟨rfl, rfl⟩
    exact hparts.mono fun args w' h => ⟨args, rfl, h⟩
  · rintro _ w' ⟨args, rfl, hargs⟩
    exact .bind (hcall args w' hargs) fun v _ hv => .pure ⟨v, rfl, hv⟩

end Forms

section Counting

variable {fuel levels : Nat} {stack : CallStack} {n : Int64} {note f : Value}

/-- The next number, if there is one. -/
theorem add_ok {v : Value} (h : Native.total .add 0 [.int 1, .int n] = .ok v) :
    ∃ m : Int64, v = .int m ∧ m.toInt = n.toInt + 1 := by
  rw [Native.total_add, Native.exact] at h
  cases hm : integer? ((1 : Int64).toInt + n.toInt) with
  | none =>
    rw [hm] at h
    cases h
  | some m =>
    rw [hm] at h
    cases h
    exact ⟨m, rfl, by rw [integer?_eq_some_iff.mp hm]; exact Int.add_comm _ _⟩

/-- Called with a number, the function that `gensym` counts on with comes to the next number. -/
theorem counted (hw : w.heap.HasGensym global counter) (hf : w.heap.CountsOn global f)
    (native : Native → List Value → ScopeId → Recorded Value) (extra : List Value) :
    (callWith (evalWithin fuel levels stack) native f (.int n :: extra) scope).Goes global counter w
      fun v w' => (∃ m : Int64, v = .int m ∧ m.toInt = n.toInt + 1) ∧
        w.Apart counter w' ∧ w'.heap.cells = w.heap.cells := by
  obtain ⟨id, expander, note, s, rfl, hbare, hclosure⟩ := hf
  let called := w.entered (some s) [("x", .int n)]
  let inner := w.newScope (some s) [("x", .int n)]
  have hcalled : called.heap.HasGensym global counter := hw.entered _ _
  have hmeans : called.heap.Means inner [.symbol, .str, .swap, .add] [.function] :=
    (hbare.means hw.names).newScope
      (Entries.find?_single_none (show "x" ∉ standardNames by decide +kernel) _)
  obtain ⟨_, hadd⟩ := hmeans.native .add (by decide)
  have hx := World.lookup_newScope hbare.knows [("x", .int n)] "x"
  have hbody : (evalWithin fuel levels stack (ofList [.sym "+", .int 1, .sym "x"]) inner).Goes
      global counter called fun v w' => (∃ m : Int64, v = .int m ∧ m.toInt = n.toInt + 1) ∧
        w.Apart counter w' ∧ w'.heap.cells = w.heap.cells := by
    refine .evaluated hcalled (by simp [Definition.gensym, ofList]) fun levels => ?_
    refine .native .add (L := fun args w' => args = [.int 1, .int n] ∧ w' = called) hcalled rfl hadd
      ?_ ?_
    · refine .each_cons (P := fun v w' => v = .int 1 ∧ w' = called) (.int hcalled ⟨rfl, rfl⟩) ?_
      rintro _ _ ⟨rfl, rfl⟩
      refine .each_cons (P := fun v w' => v = .int n ∧ w' = called)
        (.symbol hcalled hx ⟨rfl, rfl⟩) ?_
      rintro _ _ ⟨rfl, rfl⟩
      exact .each_nil ⟨rfl, rfl⟩
    · rintro _ _ ⟨rfl, rfl⟩
      exact .compute hcalled rfl fun v hv =>
        ⟨add_ok hv, (World.Apart.refl counter w).entered _ _, rfl⟩
  refine .known (outcome_query _ w) ?_
  simp only [hclosure]
  exact .known (outcome_enter _ _ _) hbody

/-- The function is made. -/
theorem increment (hw : w.heap.HasGensym global counter) (hbare : w.heap.Bare global scope) :
    (evalWithin fuel levels stack Definition.increment scope).Goes global counter w fun f w' =>
      w'.heap.CountsOn global f ∧ w.Apart counter w' ∧ w'.heap.cells = w.heap.cells := by
  let c : Closure := ⟨["x"], ofList [.sym "+", .int 1, .sym "x"], scope⟩
  have hmeans := hbare.means hw.names
  have hsame : w.heap.expander? Definition.increment scope = none :=
    Heap.expander?_of_lookup _ _ (hmeans.form .function (by decide))
  refine .evaluated hw (by simp [Definition.gensym, Definition.increment, ofList]) fun levels =>
    .step hsame (.silent fun step w' ho => ?_)
  cases ho
  refine ⟨_, rfl, ?_, (World.Apart.refl counter w).withClosure c, rfl⟩
  exact ⟨_, false, .nil, scope, rfl, hbare, Array.getElem?_push_size⟩

/-- The counter comes to hold the next number. -/
theorem swapped (hw : w.heap.HasGensym global counter) (hf : w.heap.CountsOn global f)
    (hn : w.heap.Holds counter (.int n)) :
    (callNative (evalWithin fuel levels) fuel stack .swap [.atom counter note, f] scope).Goes
      global counter w fun v w' => ∃ m : Int64, v = .int m ∧ m.toInt = n.toInt + 1 ∧ w.Apart counter w' ∧
        w'.heap.Holds counter (.int m) := by
  have hleaves : w.heap.LeavesCounter global counter .swap [.atom counter note, f] := by
    refine ⟨fun hop => (by cases hop), fun _ _ f' extra heq => ?_⟩
    cases heq
    exact hf
  refine .call hw hleaves fun fuel stack => ?_
  simp only [perform, Native.behaviour, runSwap]
  refine .known (a := counter) rfl (.bind (P := fun _ w' => w' = w) (.ofExcept fun _ _ => rfl) ?_)
  rintro _ _ rfl
  refine .known (outcome_query _ _) ?_
  rw [hn.eq]
  refine .bind (.bind (counted hw hf _ []) fun v w' hv => .settle hv) ?_
  rintro _ w' ⟨⟨m, rfl, hm⟩, hapart, hcells⟩
  exact .known (a := ()) rfl (.pure ⟨m, rfl, hm, hapart.counting _, (hn.of_cells hcells).setCell _⟩)

theorem counting (hw : w.heap.HasGensym global counter) (hbare : w.heap.Bare global scope)
    (hn : w.heap.Holds counter (.int n)) :
    (evalWithin fuel levels stack (ofList [.sym "swap!", .sym "*gensym-counter*", Definition.increment])
      scope).Goes global counter w fun v w' => ∃ m : Int64, v = .int m ∧ m.toInt = n.toInt + 1 ∧
        w.Apart counter w' ∧ w'.heap.Holds counter (.int m) := by
  obtain ⟨_, hswap⟩ := (hbare.means hw.names).native .swap (by decide)
  obtain ⟨note, hcounter⟩ := hw.counter
  refine .evaluated hw (by simp [Definition.gensym, ofList]) fun levels => ?_
  refine .native .swap (L := fun args w' => ∃ f, args = [.atom counter note, f] ∧
    w'.heap.CountsOn global f ∧ w.Apart counter w' ∧ w'.heap.cells = w.heap.cells) hw rfl hswap ?_ ?_
  · refine .each_cons (P := fun v w' => v = .atom counter note ∧ w' = w)
      (.symbol hw ((hbare.lookup _).trans hcounter) ⟨rfl, rfl⟩) ?_
    rintro _ _ ⟨rfl, rfl⟩
    exact .each_cons (increment hw hbare) fun f w' hf => .each_nil ⟨f, rfl, hf⟩
  · rintro _ w' ⟨f, rfl, hf, hapart, hcells⟩
    refine (swapped (hw.apart hapart) hf (hn.of_cells hcells)).mono ?_
    rintro _ w'' ⟨m, rfl, hm, hapart', hm'⟩
    exact ⟨m, rfl, hm, hapart.trans hapart', hm'⟩

/-- A call of `gensym` comes to the name with the next number, if to anything, and then the counter holds
that number. -/
theorem gensym (hw : w.heap.HasGensym global counter) (hbare : w.heap.Bare global scope)
    (hn : w.heap.Holds counter (.int n)) :
    (evalStep (evalWithin fuel levels) fuel stack Definition.gensym.body scope).Goes global counter w
      fun step w' => ∃ v, step = .done v ∧ ∃ m : Int64, v = .sym (gensymName m) ∧
        m.toInt = n.toInt + 1 ∧ w.Apart counter w' ∧ w'.heap.Holds counter (.int m) := by
  have hmeans := hbare.means hw.names
  obtain ⟨_, hsymbol⟩ := hmeans.native .symbol (by decide)
  obtain ⟨_, hstr⟩ := hmeans.native .str (by decide)
  refine .native .symbol (L := fun args w' => ∃ m : Int64, args = [.str (gensymName m)] ∧
    m.toInt = n.toInt + 1 ∧ w.Apart counter w' ∧ w'.heap.Holds counter (.int m)) hw rfl hsymbol ?_ ?_
  · refine .each_cons (.evaluated hw (by simp [Definition.gensym, ofList]) fun levels => ?_)
      fun v w' hv => .each_nil hv
    refine .native .str (L := fun args w' => ∃ m : Int64, args = [.str "G__", .int m] ∧
      m.toInt = n.toInt + 1 ∧ w.Apart counter w' ∧ w'.heap.Holds counter (.int m)) hw rfl hstr ?_ ?_
    · refine .each_cons (P := fun v w' => v = .str "G__" ∧ w' = w) (.text hw ⟨rfl, rfl⟩) ?_
      rintro _ _ ⟨rfl, rfl⟩
      refine .each_cons (counting hw hbare hn) ?_
      rintro _ w' ⟨m, rfl, hm⟩
      exact .each_nil ⟨m, rfl, hm⟩
    · rintro _ w' ⟨m, rfl, hm, hapart, hm'⟩
      have hleaves : w'.heap.LeavesCounter global counter .str [.str "G__", .int m] :=
        ⟨fun hop => Native.noConfusion hop, fun hop => Native.noConfusion hop⟩
      refine .call (hw.apart hapart) hleaves fun fuel stack => ?_
      refine .silent fun v w'' ho => ?_
      cases ho
      exact ⟨m, congrArg (fun name => [Value.str name]) (printAll_gensymName _ m), hm, hapart, hm'⟩
  · rintro _ w' ⟨m, rfl, hm, hapart, hm'⟩
    refine .compute (hw.apart hapart) rfl fun v hv => ?_
    cases hv
    exact ⟨m, rfl, hm, hapart, hm'⟩

end Counting

end Recorded.Goes
end MiniLisp
