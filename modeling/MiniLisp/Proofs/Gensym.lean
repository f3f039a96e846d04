import MiniLisp.Proofs.Endings
import MiniLisp.Proofs.PreludeDefinitions

namespace MiniLisp

open Value Run

/-- Names like those that `gensym` makes. -/
def Generated (name : String) : Prop :=
  "G__".toList <+: name.toList

instance (name : String) : Decidable (Generated name) :=
  inferInstanceAs (Decidable (_ <+: _))

/-- The name with this number. -/
def gensymName (n : Int64) : String :=
  String.ofList ("G__".toList ++ Decimal.render n.toInt)

theorem generated_gensymName (n : Int64) : Generated (gensymName n) := by
  refine ⟨Decimal.render n.toInt, ?_⟩
  simp [gensymName]

theorem printAll_gensymName (heap : Heap) (n : Int64) :
    Value.printAll heap .display "" [.str "G__", .int n] = gensymName n := by
  have hmark : text heap .display maxFormDepth (.str "G__") = "G__".toList := rfl
  have hnumber : text heap .display maxFormDepth (.int n) = Decimal.render n.toInt := rfl
  simp [Value.printAll, joinTexts, hmark, hnumber, gensymName]

/-- Between these worlds the counter may have changed, and there may be new scopes and functions. -/
structure World.Apart (counter : CellId) (w w' : World) : Prop where
  scopes : ∀ scope, w.heap.Knows scope → w'.heap.scopes.get? scope = w.heap.scopes.get? scope
  cells : ∃ v, w'.heap.cells = w.heap.cells.setIfInBounds counter.index v
  closures : ∀ id c, w.heap.closure? id = some c → w'.heap.closure? id = some c
  surroundings : { w' with heap := w.heap } = w

namespace World.Apart

variable {counter : CellId} {w w' w'' : World} {scope : ScopeId} {name : String}

theorem refl (counter : CellId) (w : World) : w.Apart counter w where
  scopes _ _ := rfl
  cells := by
    refine ⟨w.heap.cell counter, Array.ext_getElem? fun i => ?_⟩
    rw [Array.getElem?_setIfInBounds]
    split
    · next hi =>
      subst hi
      split
      · next hlt => simp [Heap.cell, Array.getElem?_eq_getElem hlt]
      · next hge => exact Array.getElem?_eq_none (Nat.le_of_not_lt hge)
    · rfl
  closures _ _ h := h
  surroundings := rfl

theorem knows (h : w.Apart counter w') (hk : w.heap.Knows scope) : w'.heap.Knows scope := by
  obtain ⟨s, hs⟩ := Heap.knows_iff.mp hk
  exact Heap.knows_iff.mpr ⟨s, (h.scopes scope hk).trans hs⟩

theorem lookup (h : w.Apart counter w') (hk : w.heap.Knows scope) (name : String) :
    w'.heap.scopes.lookup scope name = w.heap.scopes.lookup scope name :=
  Heap.lookup_congr (fun id s hs =>
    ⟨s, (h.scopes id (Heap.knows_iff.mpr ⟨s, hs⟩)).trans hs, rfl, rfl⟩) hk

theorem trans (h : w.Apart counter w') (h' : w'.Apart counter w'') : w.Apart counter w'' where
  scopes scope hk := (h'.scopes scope (h.knows hk)).trans (h.scopes scope hk)
  cells := by
    obtain ⟨v, hv⟩ := h.cells
    obtain ⟨v', hv'⟩ := h'.cells
    exact ⟨v', by rw [hv', hv, Array.setIfInBounds_setIfInBounds]⟩
  closures id c hc := h'.closures id c (h.closures id c hc)
  surroundings := by
    have hfirst := h.surroundings
    have hsecond := h'.surroundings
    cases w
    cases w'
    cases w''
    simp_all

/-- What leaves cells alone and only adds scopes and functions keeps apart. -/
theorem entered (h : w.Apart counter w') (outer : Option ScopeId) (bindings : Entries String Value) :
    w.Apart counter (w'.entered outer bindings) := by
  refine h.trans ⟨fun scope hk => Heap.get?_enter_known hk outer bindings, ?_, fun _ _ hc => hc, rfl⟩
  exact (refl counter w').cells

theorem openedFor (counter : CellId) (w : World) (scope : ScopeId) (forms : List Value) :
    w.Apart counter (w.openedFor scope forms) :=
  (refl counter w).entered _ _

theorem binding (h : w.Apart counter w') (hnew : ¬ w.heap.Knows scope) (name : String) (v : Value) :
    w.Apart counter (w'.binding scope name v) where
  scopes other hk := by
    have hne : other ≠ scope := fun heq => hnew (heq ▸ hk)
    rw [World.binding, Heap.get?_bind, if_neg hne, h.scopes other hk]
  cells := h.cells
  closures := h.closures
  surroundings := h.surroundings

theorem withClosure (h : w.Apart counter w') (c : Closure) :
    w.Apart counter { w' with heap := (w'.heap.newClosure c).1 } where
  scopes := h.scopes
  cells := h.cells
  closures id c' hc := by
    have hold := h.closures id c' hc
    have hlt : id.index < w'.heap.closures.size := (Array.getElem?_eq_some_iff.mp hold).1
    exact (Array.getElem?_push_lt hlt).trans (Array.getElem?_eq_getElem hlt ▸ hold)
  surroundings := h.surroundings

theorem counting (h : w.Apart counter w') (v : Value) :
    w.Apart counter { w' with heap := w'.heap.setCell counter v } := by
  refine h.trans ⟨fun _ _ => rfl, ⟨v, rfl⟩, fun _ _ hc => hc, rfl⟩

end World.Apart

/-- `gensym` and its counter are what the prelude defines, and the names in the definition mean what they
say. -/
structure Heap.HasGensym (heap : Heap) (global : ScopeId) (counter : CellId) : Prop where
  names : heap.Means global [.symbol, .str, .swap, .add] [.function]
  gensym : heap.Defines global Definition.gensym
  counter : ∃ note, heap.scopes.lookup global "*gensym-counter*" = some (.atom counter note)

theorem Heap.HasGensym.entered {w : World} {global : ScopeId} {counter : CellId}
    (h : w.heap.HasGensym global counter) (outer : Option ScopeId) (bindings : Entries String Value) :
    (w.entered outer bindings).heap.HasGensym global counter where
  names := h.names.transfer ((Extends.enter w.heap outer bindings).knows h.names.known) fun name _ =>
    World.lookup_entered h.names.known outer bindings name
  gensym := h.gensym.entered outer bindings
  counter := by
    obtain ⟨note, hcounter⟩ := h.counter
    exact ⟨note, (World.lookup_entered h.names.known outer bindings _).trans hcounter⟩

theorem Heap.HasPrelude.hasGensym {heap : Heap} {global : ScopeId} (h : heap.HasPrelude global) :
    heap.HasGensym global ⟨0⟩ where
  names := h.unrebound.means _ _ fun form _ => h.standard.form form
  gensym := h.defines Definition.gensym (by simp [Definition.late])
  counter := ⟨_, h.counter⟩

section

variable {levels : Nat} {global scope : ScopeId} {counter : CellId} {w w' : World} {n m : Int64}
  {note v v' : Value}

/-- Adding one to what the counter holds. -/
theorem gives_increment (levels : Nat)
    (hadd : w.heap.scopes.lookup scope "+" = some (.native .add note))
    (hx : w.heap.scopes.lookup scope "x" = some (.int n)) (hm : m.toInt = n.toInt + 1) :
    Gives (levels + 2) (ofList [.sym "+", .int 1, .sym "x"]) scope w (.int m) w := by
  refine .native .add rfl hadd (.cons (.int 1) (.cons (.symbol hx rfl) .nil))
    (.of_succ 0 fun fuel _ => ?_) rfl
  have hsum : integer? ((1 : Int64).toInt + n.toInt) = some m := by
    rw [integer?_eq_some_iff, hm]
    exact Int.add_comm _ _
  rw [add_outcome, Native.exact, hsum]
  rfl

/-- What is called with what the atom holds comes to what it then holds. -/
theorem Native.swap_ok {ev : Evaluator} {fuel : Nat} {f : Value} (hf : Native.swap.callable f = .ok ())
    (hv : (f.call ev fuel [w.heap.cell counter] scope).outcome w = some (.ok v, w')) :
    (Native.call ev (fuel + 1) .swap [.atom counter note, f] scope).outcome w =
      some (.ok v, { w' with heap := w'.heap.setCell counter v }) := by
  have hcheck : Native.swap.arity.check Native.swap.name [Value.atom counter note, f].length =
      .ok () := rfl
  rw [Native.call_perform hcheck]
  simp only [perform, behaviour, runSwap, cell, hf, ofExcept_ok, pure_bind]
  rw [outcome_bind_ok _ (outcome_query _ w), outcome_bind_ok _ hv]
  rfl

/-- The atom comes to hold what the function makes of what it held. -/
theorem swap_ultimately {c : Closure} {id : FnId} (hclosure : w.heap.closure? id = some c)
    (hcall : Gives levels c.body
      (w.newScope (some c.scope) (bindParams [] c.params [w.heap.cell counter]))
      (w.entered (some c.scope) (bindParams [] c.params [w.heap.cell counter])) v w') :
    Ultimately (fun fuel => Native.call (evalWithin fuel levels) fuel .swap
      [.atom counter note, .fn id false .nil] scope) w
      (some (.ok v, { w' with heap := w'.heap.setCell counter v })) := by
  have hv := Evaluates.settled hcall
  obtain ⟨least, hcall⟩ := hcall
  refine .of_succ least fun fuel hfuel => Native.swap_ok rfl ?_
  have hbody : (c.call (evalWithin (fuel + 1) levels) [w.heap.cell counter]).outcome w = _ :=
    (Closure.call_eval c _).trans (hcall (fuel + 1) (by omega))
  rw [Value.call, Value.callWith, bind_assoc, outcome_bind_ok _ (outcome_query _ w), hclosure]
  rw [outcome_bind_ok _ hbody, hv]
  rfl

/-- If the function fails, the atom is left as it was. -/
theorem swap_fails {c : Closure} {id : FnId} {fault : Fault} (hclosure : w.heap.closure? id = some c)
    (hcall : Evaluates levels c.body
      (w.newScope (some c.scope) (bindParams [] c.params [w.heap.cell counter]))
      (w.entered (some c.scope) (bindParams [] c.params [w.heap.cell counter]))
      (some (.error fault, w'))) :
    Ultimately (fun fuel => Native.call (evalWithin fuel levels) fuel .swap
      [.atom counter note, .fn id false .nil] scope) w (some (.error fault, w')) := by
  obtain ⟨least, hcall⟩ := hcall
  refine .of_succ least fun fuel hfuel => Native.swap_error rfl ?_
  have hbody : (c.call (evalWithin (fuel + 1) levels) [w.heap.cell counter]).outcome w = _ :=
    (Closure.call_eval c _).trans (hcall (fuel + 1) (by omega))
  rw [Value.call, Value.callWith, bind_assoc, outcome_bind_ok _ (outcome_query _ w), hclosure]
  exact outcome_bind_error _ hbody

theorem gives_str (hstr : w.heap.scopes.lookup scope "str" = some (.native .str note)) {x y : Value}
    (hx : Gives (levels + 1) x scope w v w) (hy : Gives (levels + 1) y scope w v' w') :
    Gives (levels + 2) (ofList [.sym "str", x, y]) scope w
      (.str (Value.printAll w'.heap .display "" [v, v'])) w' :=
  .native .str rfl hstr (.cons hx (.cons hy .nil)) (.of_succ 0 fun _ _ => rfl) rfl

/-- The counter counts on, in a function made for that and called in a scope of its own, if one can be
added to what it holds. -/
theorem counted_ends {r : Except Fault Value}
    (h : w.heap.Means scope [.symbol, .str, .swap, .add] [.function])
    (hcounter : w.heap.scopes.lookup scope "*gensym-counter*" = some (.atom counter note))
    (hcount : w.heap.cell counter = .int n)
    (hadds : ∀ {inner w' note}, w'.heap.scopes.lookup inner "+" = some (.native .add note) →
      w'.heap.scopes.lookup inner "x" = some (.int n) →
      Evaluates (levels + 2) (ofList [.sym "+", .int 1, .sym "x"]) inner w' (some (r, w'))) :
    ∃ w', Evaluates (levels + 3) (ofList [.sym "swap!", .sym "*gensym-counter*", Definition.increment])
      scope w (some (r, w')) ∧ w.Apart counter w' ∧
        ∀ fault, r = .error fault → w'.heap.cells = w.heap.cells := by
  obtain ⟨_, hswap⟩ := h.native .swap (by decide)
  let c : Closure := ⟨["x"], ofList [.sym "+", .int 1, .sym "x"], scope⟩
  let made : World := { w with heap := (w.heap.newClosure c).1 }
  let called := made.entered (some scope) [("x", .int n)]
  have hmade : made.heap.Means scope _ _ := h.transfer h.known fun _ _ => rfl
  have hcalled := hmade.newScope
    (Entries.find?_single_none (show "x" ∉ standardNames by decide +kernel) (.int n))
  obtain ⟨_, hadd⟩ := hcalled.native .add (by decide)
  have hx := World.lookup_newScope (w := made) hmade.known [("x", .int n)] "x"
  have hcall : Evaluates (levels + 2) c.body
      (made.newScope (some scope) (bindParams [] c.params [made.heap.cell counter]))
      (made.entered (some scope) (bindParams [] c.params [made.heap.cell counter]))
      (some (r, called)) := by
    rw [show made.heap.cell counter = .int n from hcount]
    exact hadds hadd hx
  have hfunction : Gives (levels + 2) Definition.increment scope w
      (.fn (w.heap.newClosure c).2 false .nil) made :=
    .newFunction (h.form .function (by decide)) rfl
  have hargs := GivesAll.cons (.symbol hcounter rfl) (.cons hfunction .nil)
  have hapart : w.Apart counter called := ((World.Apart.refl counter w).withClosure c).entered _ _
  cases r with
  | ok v =>
    refine ⟨_, .native .swap rfl hswap hargs
      (swap_ultimately (c := c) Array.getElem?_push_size hcall) (Evaluates.settled hcall),
      hapart.counting _, fun _ hr => by cases hr⟩
  | error fault =>
    exact ⟨_, .native_error .swap rfl hswap hargs
      (swap_fails (c := c) Array.getElem?_push_size hcall), hapart, fun _ _ => rfl⟩

theorem gives_counted (levels : Nat) (h : w.heap.Means scope [.symbol, .str, .swap, .add] [.function])
    (hcounter : w.heap.scopes.lookup scope "*gensym-counter*" = some (.atom counter note))
    (hcount : w.heap.cell counter = .int n) (hm : m.toInt = n.toInt + 1) :
    ∃ w', Gives (levels + 3) (ofList [.sym "swap!", .sym "*gensym-counter*", Definition.increment])
      scope w (.int m) w' ∧ w.Apart counter w' := by
  obtain ⟨w', hends, hapart, -⟩ := counted_ends h hcounter hcount fun hadd hx =>
    gives_increment levels hadd hx hm
  exact ⟨w', hends, hapart⟩

/-- What is counted is printed after the mark of generated names. -/
theorem gives_named {natives : List Native} {forms : List SpecialForm}
    (h : w.heap.Means scope (.symbol :: .str :: natives) forms)
    (hcounted : Gives (levels + 3)
      (ofList [.sym "swap!", .sym "*gensym-counter*", Definition.increment]) scope w v w') :
    Gives (levels + 5) Definition.gensym.body scope w
      (.sym (Value.printAll w'.heap .display "" [.str "G__", v])) w' := by
  obtain ⟨_, hsymbol⟩ := h.native .symbol (by simp)
  obtain ⟨_, hstr⟩ := h.native .str (by simp)
  have hname := gives_str hstr (.text "G__") hcounted
  exact .compute .symbol rfl rfl hsymbol (.cons hname .nil) rfl rfl rfl

/-- A call of `gensym` comes to what its body does in a scope of its own, in which nothing is bound. -/
theorem gives_gensym (h : w.heap.Defines global Definition.gensym)
    (hname : w.heap.scopes.lookup scope "gensym" = w.heap.scopes.lookup global "gensym")
    (hbody : Gives (levels + 2) Definition.gensym.body (w.newScope (some global) [])
      (w.entered (some global) []) v w') :
    Gives (levels + 2) (ofList [.sym "gensym"]) scope w v w' := by
  obtain ⟨id, hgensym, hclosure⟩ := h
  exact .function rfl (hname.trans hgensym) (.cons (.symbol (hname.trans hgensym) rfl) .nil) hclosure
    hbody

/-- The next name is made, and apart from the counter all is as it was. -/
theorem Heap.HasGensym.gives (levels : Nat) (h : w.heap.HasGensym global counter)
    (hname : w.heap.scopes.lookup scope "gensym" = w.heap.scopes.lookup global "gensym")
    (hcount : w.heap.cell counter = .int n) (hm : m.toInt = n.toInt + 1) :
    ∃ w', Gives (levels + 5) (ofList [.sym "gensym"]) scope w (.sym (gensymName m)) w' ∧
      w.Apart counter w' := by
  obtain ⟨atomNote, hcounter⟩ := h.counter
  let opened := w.entered (some global) []
  let inner := w.newScope (some global) []
  have hmeans : opened.heap.Means inner _ _ := h.names.newScope fun _ _ => rfl
  have hatom : opened.heap.scopes.lookup inner "*gensym-counter*" = _ :=
    (World.lookup_newScope h.names.known [] _).trans hcounter
  obtain ⟨w', hcounted, hapart⟩ := gives_counted levels hmeans hatom hcount hm
  have hnamed := gives_named hmeans hcounted
  rw [printAll_gensymName] at hnamed
  exact ⟨w', gives_gensym h.gensym hname hnamed,
    ((World.Apart.refl counter w).entered _ _).trans hapart⟩

end

end MiniLisp
