import MiniLisp.Proofs.InnerScopes
import MiniLisp.Proofs.Metadata

namespace MiniLisp

open Value Run

/-- With so many levels left inside, the expansion of the form has this ending. -/
def Expands (levels : Nat) (form : Value) (scope : ScopeId) (w : World) (o : Ending Value) : Prop :=
  Ultimately (fun fuel => expand (evalWithin fuel levels) fuel form scope) w o

namespace Expands

variable {levels : Nat} {form m : Value} {scope : ScopeId} {w w' : World} {o : Ending Value}
  {c : Closure} {args : List Value}

theorem «exists» (levels : Nat) (form : Value) (scope : ScopeId) (w : World) :
    ∃ o, Expands levels form scope w o :=
  Ultimately.exists_of_rising
    (fun _ _ hfuel => expand_below (evalWithin_below hfuel levels) hfuel form scope) w

theorem done (h : w.heap.expander? form scope = none) :
    Expands levels form scope w (some (.ok form, w)) :=
  ⟨0, fun _ _ => expand_same h⟩

/-- A call of an expander is expanded as what it makes of its arguments is. -/
theorem expander (hfound : w.heap.expander? form scope = some (c, args))
    (hcall : Gives levels c.body (w.newScope (some c.scope) (bindParams [] c.params args))
      (w.entered (some c.scope) (bindParams [] c.params args)) m w')
    (hm : Expands levels m scope w' o) : Expands levels form scope w o := by
  -- one round of the expansion is over, so it goes on with a little less fuel
  have hrest : Ultimately (fun fuel => expand (evalWithin fuel levels) (fuel - 1) m scope) w' o := by
    refine Ultimately.between hm (fun fuel => ?_) fun fuel => ?_
    · exact expand_below (evalWithin_below (Nat.le_succ fuel) levels) (Nat.le_refl fuel) m scope
    · exact expand_below (fun _ _ => .refl _) (Nat.sub_le fuel 1) m scope
  obtain ⟨least, hcall⟩ := hcall
  refine hrest.congr_succ least fun fuel hfuel => ?_
  have hends : (c.call (evalWithin (fuel + 1) levels) args).outcome w = some (.ok m, w') :=
    (Closure.call_eval c args).trans (hcall (fuel + 1) (by omega))
  exact (expand_once hfound).trans (outcome_bind_ok _ hends)

end Expands

/-- Between these worlds scopes have been opened, and nothing else has happened. -/
structure World.Opens (w w' : World) : Prop where
  scopes : ∀ scope, w.heap.Knows scope → w'.heap.scopes.get? scope = w.heap.scopes.get? scope
  same : w' = { w with heap := { w.heap with scopes := w'.heap.scopes } }

namespace World.Opens

variable {w w' w'' : World} {scope : ScopeId}

theorem refl (w : World) : w.Opens w :=
  ⟨fun _ _ => rfl, rfl⟩

theorem knows (h : w.Opens w') (hk : w.heap.Knows scope) : w'.heap.Knows scope := by
  obtain ⟨s, hs⟩ := Heap.knows_iff.mp hk
  exact Heap.knows_iff.mpr ⟨s, (h.scopes scope hk).trans hs⟩

theorem lookup (h : w.Opens w') (hk : w.heap.Knows scope) (name : String) :
    w'.heap.scopes.lookup scope name = w.heap.scopes.lookup scope name :=
  Heap.lookup_congr (fun id s hs =>
    ⟨s, (h.scopes id (Heap.knows_iff.mpr ⟨s, hs⟩)).trans hs, rfl, rfl⟩) hk

theorem closure? (h : w.Opens w') (id : FnId) : w'.heap.closure? id = w.heap.closure? id := by
  rw [h.same]
  rfl

theorem trans (h : w.Opens w') (h' : w'.Opens w'') : w.Opens w'' where
  scopes scope hk := (h'.scopes scope (h.knows hk)).trans (h.scopes scope hk)
  same := by
    rw [h'.same, h.same]

theorem entered (h : w.Opens w') (outer : Option ScopeId) (bindings : Entries String Value) :
    w.Opens (w'.entered outer bindings) :=
  h.trans ⟨fun _ hk => Heap.get?_enter_known hk outer bindings, rfl⟩

/-- A scope that is new may be given further names. -/
theorem binding (h : w.Opens w') (hnew : ¬ w.heap.Knows scope) (name : String) (v : Value) :
    w.Opens (w'.binding scope name v) where
  scopes other hk := by
    have hne : other ≠ scope := fun heq => hnew (heq ▸ hk)
    rw [World.binding, Heap.get?_bind, if_neg hne, h.scopes other hk]
  same := by
    conv_lhs => rw [h.same]
    rfl

end World.Opens

namespace Pairing

/-- Each of so many places stands for itself. -/
def below (n : Nat) : Pairing where
  pairs i j := i = j ∧ i < n
  unique := by
    rintro i _ k _ ⟨rfl, -⟩ ⟨rfl, -⟩
    exact Iff.rfl

theorem self_links {α : Type} {R : α → α → Prop} {xs : Array α}
    (h : ∀ (i : Nat) (x : α), xs[i]? = some x → R x x) :
    identity.Links True (fun _ => none) R xs xs where
  found := by
    rintro i _ rfl
    by_cases hi : i < xs.size
    · have hget := Array.getElem?_eq_getElem hi
      exact .inl ⟨xs[i], xs[i], hget, hget, h i _ hget⟩
    · exact .inr ⟨trivial, i - xs.size, by omega, by omega⟩
  keeps := by
    intro j y hy
    cases hy

end Pairing

/-- The scopes that there are, and all atoms and functions, stand for themselves. -/
def Heap.matching (heap : Heap) : Matching :=
  ⟨.below heap.scopes.all.size, .identity, .identity, True⟩

section Self

variable {ρ : Matching} {v v' : Value}

/-- A value matches itself where atoms and functions stand for themselves. -/
theorem Value.matches_self (hcells : ∀ i, ρ.cells.pairs i i) (hclosures : ∀ i, ρ.closures.pairs i i) :
    (v : Value) → v.Matches ρ v
  | .nil => .nil
  | .bool b => .bool b
  | .int n => .int n
  | .str text => .str text
  | .sym name => .sym name
  | .kw name => .kw name
  | .list items note => matches_list.mpr ⟨List.forall₂_same.mpr fun x _hx =>
      matches_self hcells hclosures x, fun _ => matches_self hcells hclosures note⟩
  | .vec items note => matches_vec.mpr ⟨List.forall₂_same.mpr fun x _hx =>
      matches_self hcells hclosures x, fun _ => matches_self hcells hclosures note⟩
  | .map entries note => matches_map.mpr ⟨List.forall₂_same.mpr fun e _he =>
      ⟨rfl, matches_self hcells hclosures e.2⟩, fun _ => matches_self hcells hclosures note⟩
  | .native op note => .native op fun _ => matches_self hcells hclosures note
  | .fn id expander note => .fn expander (hclosures _) fun _ => matches_self hcells hclosures note
  | .atom cell note => .atom (hcells _) fun _ => matches_self hcells hclosures note
  | .error kind payload => .error kind (matches_self hcells hclosures payload)
  | .caught kind payload => .caught kind (matches_self hcells hclosures payload)
termination_by v => sizeOf v
decreasing_by
  all_goals simp_wf
  all_goals first
    | omega
    | (have hlt := List.sizeOf_lt_of_mem _hx; omega)
    | (have hlt := List.sizeOf_lt_of_mem _he; cases e; simp_all; omega)

/-- Then it matches nothing else. -/
theorem Value.Matches.eq (h : v.Matches ρ v') (hnotes : ρ.notes)
    (hcells : ∀ i j, Pairing.identity.pairs i j → ρ.cells.pairs i j)
    (hclosures : ∀ i j, Pairing.identity.pairs i j → ρ.closures.pairs i j) : v = v' := by
  induction h with
  | list length _ _ elements metadata =>
    have hitems := map_eq_of_zip (f := id) (g := id) length elements
    rw [List.map_id, List.map_id] at hitems
    rw [hitems, metadata hnotes]
  | vec length _ _ elements metadata =>
    have hitems := map_eq_of_zip (f := id) (g := id) length elements
    rw [List.map_id, List.map_id] at hitems
    rw [hitems, metadata hnotes]
  | map length keys _ _ values metadata =>
    have hentries := map_eq_of_zip (f := id) (g := id) length fun e f hef =>
      Prod.ext (keys e f hef) (values e f hef)
    rw [List.map_id, List.map_id] at hentries
    rw [hentries, metadata hnotes]
  | native op _ metadata => rw [metadata hnotes]
  | fn expander place _ metadata =>
    rw [FnId.eq_iff_index.mpr (Pairing.eq_of_identity hclosures place), metadata hnotes]
  | atom place _ metadata =>
    rw [CellId.eq_iff_index.mpr (Pairing.eq_of_identity hcells place), metadata hnotes]
  | error kind _ payload => rw [payload]
  | caught kind _ payload => rw [payload]
  | _ => rfl

theorem Entries.Matches.eq {es fs : Entries String Value} (h : Entries.Matches ρ es fs)
    (hnotes : ρ.notes) (hcells : ∀ i j, Pairing.identity.pairs i j → ρ.cells.pairs i j)
    (hclosures : ∀ i j, Pairing.identity.pairs i j → ρ.closures.pairs i j) : es = fs := by
  refine List.forall₂_eq_eq_eq ▸ h.imp fun e f hef => ?_
  exact Prod.ext hef.1 (hef.2.eq hnotes hcells hclosures)

end Self

/-- Apart from scopes that were not there in the first world, and the numbers that functions know those
by, the two other worlds are the same. -/
structure World.Alike (start w w' : World) : Prop where
  scopes : ∀ scope, start.heap.Knows scope →
    w.heap.scopes.get? scope = w'.heap.scopes.get? scope
  cells : w.heap.cells = w'.heap.cells
  closures : w.heap.closures.map (fun c => (c.params, c.body)) =
    w'.heap.closures.map fun c => (c.params, c.body)
  surroundings : { w with heap := w'.heap } = w'

/-- Both have the same result and leave worlds that are alike, or neither ends. -/
inductive Ending.Alike (start : World) : Ending Value → Ending Value → Prop
  | never : Alike start none none
  | ends {r w w'} (h : start.Alike w w') : Alike start (some (r, w)) (some (r, w'))

section Opened

variable {levels : Nat} {form : Value} {scope : ScopeId} {w w' : World}

theorem Scope.matches_self {heap : Heap} {scope : ScopeId} {s : Scope}
    (h : heap.scopes.get? scope = some s) : s.Matches heap.matching s where
  bindings := List.forall₂_same.mpr fun e _ =>
    ⟨rfl, e.2.matches_self (fun _ => rfl) fun _ => rfl⟩
  outer := by
    cases ho : s.outer with
    | none => exact .none
    | some o =>
      have hlt := (Array.getElem?_eq_some_iff.mp h).1
      exact .some ⟨rfl, Nat.lt_trans (Scopes.outer_lt h ho) hlt⟩

/-- Where scopes have been opened, all that was there still stands for itself. -/
theorem World.Opens.matches (h : w.Opens w') (hw : w.heap.KnowsFunctions) :
    w.Matches w.frame w.heap.matching w' where
  heap := by
    have hcells : w'.heap.cells = w.heap.cells := by rw [h.same]
    have hclosures : w'.heap.closures = w.heap.closures := by rw [h.same]
    have hself (v : Value) : v.Matches w.heap.matching v :=
      v.matches_self (fun _ => rfl) fun _ => rfl
    refine ⟨⟨?_, fun hkept => by cases hkept⟩, ?_, ?_⟩
    · rintro i _ ⟨rfl, hi⟩
      have hget : w.heap.scopes.get? ⟨i⟩ = some w.heap.scopes.all[i] := Array.getElem?_eq_getElem hi
      exact .inl ⟨_, _, hget, (h.scopes ⟨i⟩ hi).trans hget, Scope.matches_self hget⟩
    · rw [hcells]
      exact Pairing.self_links fun _ v _ => hself v
    · rw [hclosures]
      exact Pairing.self_links fun i c hc => ⟨rfl, hself c.body, rfl, hw ⟨i⟩ c hc⟩
  input := by rw [h.same]
  silent := False.elim
  output := by rw [h.same]
  files := ⟨rfl, by rw [h.same]; rfl⟩
  clock := ⟨rfl, by rw [h.same]; rfl⟩

variable {start : World} {σ : Matching}

theorem Result.Matches.eq {r r' : Except Fault Value}
    (h : Result.Matches σ (Value.Matches σ) r r') (hσ : start.heap.matching.Grows σ) : r = r' := by
  have hnotes : σ.notes := hσ.notes.mpr trivial
  cases h with
  | ok h => rw [h.eq hnotes hσ.cells hσ.closures]
  | @error f f' h =>
    have hpayload := h.payload.eq hnotes hσ.cells hσ.closures
    have hkind := h.kind
    cases f
    cases f'
    simp_all

/-- Worlds that match where what was there at the start stands for itself are alike. -/
theorem World.Matches.alike (h : w.Matches start.frame σ w') (hσ : start.heap.matching.Grows σ) :
    start.Alike w w' where
  scopes scope hk := by
    have hself : ∀ i, i < start.heap.scopes.all.size → σ.scopes.pairs i i := fun i hi =>
      hσ.scopes i i ⟨rfl, hi⟩
    rcases (h.heap.get? (hself _ hk)).split with ⟨hs, hs'⟩ | ⟨s, s', hs, hs', hss⟩
    · rw [hs, hs']
    · have hbindings : s.bindings = s'.bindings :=
        hss.bindings.eq (hσ.notes.mpr trivial) hσ.cells hσ.closures
      have houter : s.outer = s'.outer := by
        rcases hss.outer.split with ⟨ho, ho'⟩ | ⟨o, o', ho, ho', hoo⟩
        · rw [ho, ho']
        · -- the scope around one that was there was there as well
          have hold := hself o.index (Nat.lt_trans (Scopes.outer_lt hs ho) hk)
          have hindex : o.index = o'.index := (σ.scopes.unique hold hoo).mp rfl
          rw [ho, ho']
          exact congrArg some (congrArg ScopeId.mk hindex)
      rw [hs, hs']
      cases s
      cases s'
      simp_all
  cells := by
    have hcells := Pairing.map_eq_of_links (f := id) (g := id) hσ.cells h.heap.cells
      fun _ _ hv => hv.eq (hσ.notes.mpr trivial) hσ.cells hσ.closures
    simpa using hcells
  closures := Pairing.map_eq_of_links hσ.closures h.heap.closures fun _ _ hc =>
    Prod.ext hc.params (hc.body.eq (hσ.notes.mpr trivial) hσ.cells hσ.closures)
  surroundings := by
    have hinput := h.input
    have houtput := h.output
    have hfiles := h.files.1.trans h.files.2.symm
    have hclock := h.clock.1.trans h.clock.2.symm
    cases w
    cases w'
    simp_all

/-- It makes no difference to the expansion of a form whether scopes have been opened before it. -/
theorem expands_opened (levels : Nat) (form : Value) (h : w.Opens w') (hw : w.heap.KnowsFunctions)
    (hscope : w.heap.Knows scope) :
    ∃ o o', Expands levels form scope w o ∧ Expands levels form scope w' o' ∧ Ending.Alike w o o' := by
  obtain ⟨o, hends⟩ := Expands.exists levels form scope w
  obtain ⟨o', hends'⟩ := Expands.exists levels form scope w'
  refine ⟨o, o', hends, hends', ?_⟩
  obtain ⟨least, hleast⟩ := hends
  obtain ⟨least', hleast'⟩ := hends'
  let fuel := max least least'
  have hev : Evaluator.Matches w.frame w.heap.matching (evalWithin fuel levels)
      (evalWithin fuel levels) := by
    rw [← evalUnder_idle]
    exact evalUnder_matches (Supervisor.repeats_idle trivial) fuel levels
  have hmatch := expand_matches hev fuel (form.matches_self (fun _ => rfl) fun _ => rfl)
    (show scope.Matches w.heap.matching scope from ⟨rfl, hscope⟩) _ .refl w w' (h.matches hw)
  rw [hleast fuel (Nat.le_max_left _ _), hleast' fuel (Nat.le_max_right _ _)] at hmatch
  cases hmatch with
  | never => exact .never
  | ends grown world result => exact result.eq grown ▸ .ends (world.alike grown)

end Opened
end MiniLisp
