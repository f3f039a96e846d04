import MiniLisp.Proofs.FailFast
import MiniLisp.Proofs.Grammar
import MiniLisp.Proofs.Layers
import MiniLisp.Proofs.StandardNames

namespace MiniLisp

open Value Run

/-- Keys and forms as they stand in a text, each form behind its key. -/
def pairRow (pairs : Entries Key Value) : List Value :=
  pairs.flatMap fun p => [p.1.toValue, p.2]

/-- The call of `hash-map` with this row. -/
def mapCall (pairs : Entries Key Value) : Value :=
  ofList (.sym "hash-map" :: pairRow pairs)

/-- The pairs as the reader keeps them: in ascending order, of equal keys the last one. -/
def sortedPairs (pairs : Entries Key Value) : Entries Key Value :=
  Entries.overlay [] pairs

/-- Whether pairs ascend is a matter of their keys. -/
theorem ascending_iff_keys {pairs : Entries Key Value} :
    pairs.Ascending ↔ (pairs.map (·.1)).Pairwise fun a b => compare a b = .lt :=
  (List.pairwise_map (f := Prod.fst) (R := fun a b => compare a b = .lt)).symm

theorem ascending_sortedPairs (pairs : Entries Key Value) : (sortedPairs pairs).Ascending :=
  .overlay .nil pairs

/-- What the reader makes of a row between curly brackets. -/
theorem ofBracket_pairRow (pairs : Entries Key Value) :
    ofBracket .curly (pairRow pairs) = .ok (ofEntries (sortedPairs pairs)) := by
  refine Bracketed.ofBracket (.map (ascending_sortedPairs pairs) fun key => ?_)
  rw [sortedPairs, Entries.find?_overlay, Entries.find?, Option.or_none]

/-- Pairs in ascending order are kept as they stand. -/
theorem sortedPairs_of_ascending {pairs : Entries Key Value} (h : pairs.Ascending) :
    sortedPairs pairs = pairs :=
  Except.ok.inj ((insertAll_pairs [] pairs).symm.trans (insertAll_ascending h))

/-- What the native makes of keys and values. -/
theorem runHashMap_pairRow (pairs : Entries Key Value) :
    Native.runHashMap (pairRow pairs) = .ok (ofEntries (sortedPairs pairs)) :=
  ofBracket_pairRow pairs

/-- Evaluates the form of a pair and keeps the key. -/
def evalPair (ev : Evaluator) (scope : ScopeId) (p : Key × Value) : Run (Key × Value) := do
  return (p.1, ← ev p.2 scope)

section Evaluating

variable {ev : Evaluator} {fuel steps : Nat} {scope : ScopeId} {w : World}

/-- A literal evaluates its forms in the order in which it keeps them. -/
theorem evalSteps_literal (entries : Entries Key Value) :
    evalSteps ev fuel (steps + 1) (ofEntries entries) scope =
      (entries.mapM (evalPair ev scope) >>= fun vs => pure (ofEntries vs)) := by
  simp only [ofEntries, evalSteps, evalStep, evalPlain, bind_assoc, pure_bind]
  rfl

/-- The keys of a row stand for themselves, so what counts is how the forms evaluate. -/
theorem mapM_pairRow (hkey : ∀ key : Key, ev key.toValue scope = pure key.toValue)
    (pairs : Entries Key Value) :
    ((pairRow pairs).mapM fun form => ev form scope) =
      (pairs.mapM (evalPair ev scope) >>= fun vs => pure (pairRow vs)) := by
  induction pairs with
  | nil => rfl
  | cons p pairs ih =>
    have hrow : pairRow (p :: pairs) = p.1.toValue :: p.2 :: pairRow pairs := rfl
    simp only [hrow, List.mapM_cons, hkey, pure_bind, evalPair, bind_assoc, ih]
    rfl

/-- Evaluating the forms leaves the keys as they are. -/
theorem keys_of_mapM_evalPair {pairs vs : Entries Key Value} {w' : World}
    (h : (pairs.mapM (evalPair ev scope)).outcome w = some (.ok vs, w')) :
    vs.map (·.1) = pairs.map (·.1) := by
  induction pairs generalizing w vs with
  | nil =>
    cases h
    rfl
  | cons p pairs ih =>
    rw [List.mapM_cons] at h
    rcases outcome_bind_some h with ⟨q, w₁, hq, hrest⟩ | ⟨_, -, hf⟩
    · rcases outcome_bind_some hq with ⟨v, w₂, -, hv⟩ | ⟨_, -, hf⟩
      · cases hv
        rcases outcome_bind_some hrest with ⟨qs, w₃, hqs, hall⟩ | ⟨_, -, hf⟩
        · cases hall
          rw [List.map_cons, List.map_cons, ih hqs]
        · cases hf
      · cases hf
    · cases hf

/-- A call evaluates its forms as they stand and enters what they come to. -/
theorem evalSteps_mapCall {note : Value}
    (hname : w.heap.scopes.lookup scope "hash-map" = some (.native .hashMap note))
    (hsymbol : (ev (.sym "hash-map") scope).outcome w = some (.ok (.native .hashMap note), w))
    (hkey : ∀ key : Key, ev key.toValue scope = pure key.toValue) (pairs : Entries Key Value) :
    (evalSteps ev (fuel + 1) (steps + 1) (mapCall pairs) scope).outcome w =
      (pairs.mapM (evalPair ev scope) >>= fun vs => pure (ofEntries (sortedPairs vs))).outcome w := by
  have hsame : w.heap.expander? (mapCall pairs) scope = none := by
    refine Heap.expander?_of_lookup _ _ fun id note hl => ?_
    rw [hname] at hl
    cases hl
  have hheading : SpecialForm.heading? (.sym "hash-map" :: pairRow pairs) = none := rfl
  have hnative : ∀ vs, Native.call ev (fuel + 1) .hashMap (pairRow vs) scope =
      pure (ofEntries (sortedPairs vs)) := by
    intro vs
    have hcheck : Native.hashMap.arity.check Native.hashMap.name (pairRow vs).length = .ok () := rfl
    rw [Native.call_perform hcheck]
    change ofExcept (Native.runHashMap (pairRow vs)) = _
    rw [runHashMap_pairRow, ofExcept_ok]
  have hcall : (evalCall ev (fuel + 1) (.sym "hash-map" :: pairRow pairs) scope).outcome w =
      (pairs.mapM (evalPair ev scope) >>= fun vs =>
        pure (.done (ofEntries (sortedPairs vs)))).outcome w := by
    simp only [evalCall, List.mapM_cons, bind_assoc, pure_bind]
    rw [outcome_bind_ok _ hsymbol, mapM_pairRow hkey]
    simp only [bind_assoc, pure_bind, hnative]
  rw [evalSteps, outcome_bind, evalStep_same hsame, mapCall, ofList,
    evalExpanded_call _ (List.cons_ne_nil _ _) hheading, hcall, ← outcome_bind, bind_assoc]
  rfl

end Evaluating

/-- Wherever `hash-map` is the native, the literal of the first row evaluates like the call with the
second one: to the same result in the same world. The call takes two levels at least. -/
def LiteralLike (literal call : Entries Key Value) : Prop :=
  ∀ v, ofBracket .curly (pairRow literal) = .ok v →
    ∀ fuel levels scope w note, 1 ≤ fuel → 2 ≤ levels →
      w.heap.scopes.lookup scope "hash-map" = some (.native .hashMap note) →
      (evalWithin fuel levels v scope).outcome w =
        (evalWithin fuel levels (mapCall call) scope).outcome w

/-- A literal evaluates like the call with the pairs that it keeps. -/
theorem literalLike_sortedPairs (pairs : Entries Key Value) :
    LiteralLike pairs (sortedPairs pairs) := by
  intro v hv fuel levels scope w note hfuel hlevels hname
  rw [ofBracket_pairRow, Except.ok.injEq] at hv
  subst hv
  obtain ⟨fuel, rfl⟩ := Nat.exists_eq_add_of_le' hfuel
  obtain ⟨levels, rfl⟩ := Nat.exists_eq_add_of_le' hlevels
  have hkey : ∀ key : Key, evalWithin (fuel + 1) (levels + 1) key.toValue scope =
      pure key.toValue := by
    rintro (text | name) <;> rfl
  have hsymbol : (evalWithin (fuel + 1) (levels + 1) (.sym "hash-map") scope).outcome w =
      some (.ok (.native .hashMap note), w) := evalSteps_symbol hname
  rw [evalWithin, evalSteps_literal, evalWithin, evalSteps_mapCall hname hsymbol hkey]
  apply outcome_bind_congr
  intro vs w' hvs
  have hascending : Entries.Ascending vs := by
    rw [ascending_iff_keys, keys_of_mapM_evalPair hvs, ← ascending_iff_keys]
    exact ascending_sortedPairs pairs
  rw [sortedPairs_of_ascending hascending]

/-- Of keys that do not ascend one stands behind another one that is not smaller. -/
theorem exists_descent {keys : List Key} (h : ¬ keys.Pairwise fun a b => compare a b = .lt) :
    ∃ front a rest b, keys = front ++ a :: rest ∧ b ∈ rest ∧ compare a b ≠ .lt := by
  induction keys with
  | nil => exact absurd .nil h
  | cons key keys ih =>
    by_cases hkey : ∀ b ∈ keys, compare key b = .lt
    · obtain ⟨front, a, rest, b, rfl, hb, hab⟩ :=
        ih fun hkeys => h (List.pairwise_cons.mpr ⟨hkey, hkeys⟩)
      exact ⟨key :: front, a, rest, b, rfl, hb, hab⟩
    · obtain ⟨b, hb⟩ := not_forall.mp hkey
      obtain ⟨hb, hab⟩ := Classical.not_imp.mp hb
      exact ⟨[], key, keys, b, rfl, hb, hab⟩

namespace Entries

theorem mem_overlay {lower upper : Entries Key Value} {e : Key × Value}
    (h : e ∈ overlay lower upper) : e ∈ lower ∨ e ∈ upper := by
  induction upper generalizing lower with
  | nil => exact .inl h
  | cons p upper ih =>
    have hcases : e ∈ insert p.1 p.2 lower ∨ e ∈ upper := ih h
    rcases hcases with hlower | hupper
    · rcases mem_insert hlower with rfl | hlower
      · exact .inr List.mem_cons_self
      · exact .inl hlower
    · exact .inr (List.mem_cons_of_mem p hupper)

/-- Where all keys have one value, this is what is found. -/
theorem find?_same {es : Entries Key Value} {key : Key} {v : Value} (hkey : key ∈ es.map (·.1))
    (hv : ∀ e ∈ es, e.2 = v) : find? key es = some v := by
  induction es with
  | nil => cases hkey
  | cons e es ih =>
    rw [find?]
    split
    · rw [hv e List.mem_cons_self]
    · next hne =>
      have hkey' : key ∈ es.map (·.1) := (List.mem_cons.mp hkey).resolve_left (Ne.symm hne)
      exact ih hkey' fun e he => hv e (List.mem_cons_of_mem _ he)

end Entries

/-- Pairs with these keys that tell whether the key `a` is reached first: its form is a name of its
own, there is nothing to evaluate in front of it, and all forms behind it are one other name. -/
def tellingPairs (front : List Key) (a : Key) (rest : List Key) : Entries Key Value :=
  front.map (·, .nil) ++ (a, .sym "x") :: rest.map (·, .sym "y")

theorem keys_tellingPairs (front : List Key) (a : Key) (rest : List Key) :
    (tellingPairs front a rest).map (·.1) = front ++ a :: rest := by
  simp [tellingPairs, Function.comp_def]

/-- A key behind `a` keeps the other name. -/
theorem mem_sorted_tellingPairs {front rest : List Key} {a b : Key} (hb : b ∈ rest) :
    (b, .sym "y") ∈ sortedPairs (tellingPairs front a rest) := by
  apply Entries.mem_of_find?
  have hfound : Entries.find? b (rest.map (·, Value.sym "y")).reverse = some (.sym "y") := by
    refine Entries.find?_same ?_ ?_
    · simpa [Function.comp_def] using hb
    · simp
  rw [sortedPairs, Entries.find?_overlay, tellingPairs, List.reverse_append, List.reverse_cons,
    Entries.find?_append, Entries.find?_append, hfound]
  rfl

section Telling

variable {ev : Evaluator} {scope : ScopeId} {w : World} {fault : Fault}

/-- Pairs fail like the first one of them that fails. -/
theorem mapM_evalPair_error {pairs : Entries Key Value} {p : Key × Value}
    (hpairs : ∀ q ∈ pairs, (ev q.2 scope).outcome w = some (.ok .nil, w) ∨
      (ev q.2 scope).outcome w = some (.error fault, w))
    (hp : (ev p.2 scope).outcome w = some (.error fault, w)) (rest : Entries Key Value) :
    ((pairs ++ p :: rest).mapM (evalPair ev scope)).outcome w = some (.error fault, w) := by
  have hfails : ∀ q : Key × Value, (ev q.2 scope).outcome w = some (.error fault, w) →
      (evalPair ev scope q).outcome w = some (.error fault, w) :=
    fun q hq => outcome_bind_error _ hq
  induction pairs with
  | nil =>
    rw [List.nil_append, List.mapM_cons]
    exact outcome_bind_error _ (hfails p hp)
  | cons q pairs ih =>
    obtain ⟨hq, hpairs⟩ := List.forall_mem_cons.mp hpairs
    rw [List.cons_append, List.mapM_cons]
    rcases hq with hq | hq
    · have hends : (evalPair ev scope q).outcome w = some (.ok (q.1, .nil), w) :=
        outcome_bind_ok _ hq
      rw [outcome_bind_ok _ hends]
      exact outcome_bind_error _ (ih hpairs)
    · exact outcome_bind_error _ (hfails q hq)

end Telling

/-- A world with one scope, in which `hash-map` is the native and nothing else is bound. -/
def mapWorld : World :=
  { World.start Files.empty "" 0 with
    heap := (Heap.empty.enter none [("hash-map", .native .hashMap .nil)]).1 }

theorem lookup_mapWorld (name : String) : mapWorld.heap.scopes.lookup ⟨0⟩ name =
    Entries.find? name [("hash-map", .native .hashMap .nil)] :=
  Scopes.lookup_outermost (s := ⟨[("hash-map", .native .hashMap .nil)], none⟩) rfl rfl name

/-- If keys do not ascend, forms can be found for which the literal fails differently. -/
theorem not_literalLike_tellingPairs {front rest : List Key} {a b : Key} (hb : b ∈ rest)
    (hab : compare a b ≠ .lt) :
    ¬ LiteralLike (tellingPairs front a rest) (tellingPairs front a rest) := by
  intro h
  have hname : mapWorld.heap.scopes.lookup ⟨0⟩ "hash-map" = some (.native .hashMap .nil) :=
    lookup_mapWorld _
  have hnil : (evalWithin 1 1 .nil ⟨0⟩).outcome mapWorld = some (.ok .nil, mapWorld) := rfl
  have hx : (evalWithin 1 1 (.sym "x") ⟨0⟩).outcome mapWorld =
      some (.error (Cause.unbound "x").fault, mapWorld) := evalSteps_unbound (lookup_mapWorld "x")
  have hy : (evalWithin 1 1 (.sym "y") ⟨0⟩).outcome mapWorld =
      some (.error (Cause.unbound "y").fault, mapWorld) := evalSteps_unbound (lookup_mapWorld "y")
  -- the call comes to the form of `a` first
  have hcall : (evalWithin 1 2 (mapCall (tellingPairs front a rest)) ⟨0⟩).outcome mapWorld =
      some (.error (Cause.unbound "x").fault, mapWorld) := by
    rw [evalWithin, evalSteps_mapCall hname ((layered_evalWithin 1).symbol hname rfl)]
    · refine outcome_bind_error _ (mapM_evalPair_error ?_ hx _)
      intro q hq
      obtain ⟨key, -, rfl⟩ := List.mem_map.mp hq
      exact .inl hnil
    · rintro (text | name) <;> rfl
  -- the literal comes to `b`, which is not above `a`, and then `a` has not been reached
  have hliteral : (evalWithin 1 2 (ofEntries (sortedPairs (tellingPairs front a rest)))
      ⟨0⟩).outcome mapWorld = some (.error (Cause.unbound "y").fault, mapWorld) := by
    obtain ⟨later, hsplit⟩ := (ascending_sortedPairs (tellingPairs front a rest)).split
      (mem_sorted_tellingPairs hb)
    rw [evalWithin, evalSteps_literal, hsplit]
    refine outcome_bind_error _ (mapM_evalPair_error ?_ hy _)
    intro q hq
    obtain ⟨hmem, hlt⟩ := List.mem_filter.mp hq
    have hpair := (Entries.mem_overlay hmem).resolve_left (List.not_mem_nil)
    rcases List.mem_append.mp hpair with hfront | hpair
    · obtain ⟨key, -, rfl⟩ := List.mem_map.mp hfront
      exact .inl hnil
    · rcases List.mem_cons.mp hpair with rfl | hrest
      · exact absurd (of_decide_eq_true hlt) hab
      · obtain ⟨key, -, rfl⟩ := List.mem_map.mp hrest
        exact .inr hy
  have hsame := h _ (ofBracket_pairRow _) 1 2 ⟨0⟩ mapWorld .nil (Nat.le_refl 1) (Nat.le_refl 2)
    hname
  rw [hcall, hliteral, Option.some.injEq, Prod.mk.injEq, Except.error.injEq] at hsame
  have hmessage : Value.str (Cause.unbound "y").message = .str (Cause.unbound "x").message :=
    congrArg Fault.payload hsame.1
  injection hmessage with htext
  revert htext
  decide

/-- The reader keeps the pairs of a literal in ascending order of their keys, of equal keys the last
one, and the literal evaluates like the call of `hash-map` with these pairs. So it evaluates like the
call that it abbreviates, with the pairs as they stand in the text, in every state and whatever the
forms are, exactly if the keys stand in ascending order and none stands twice. -/
theorem map_literal_like_call_iff (keys : List Key) :
    (∀ pairs : Entries Key Value, pairs.map (·.1) = keys → LiteralLike pairs (sortedPairs pairs)) ∧
    ((∀ pairs : Entries Key Value, pairs.map (·.1) = keys → LiteralLike pairs pairs) ↔
      keys.Pairwise fun a b => compare a b = .lt) := by
  refine ⟨fun pairs _ => literalLike_sortedPairs pairs, ?_, ?_⟩
  · intro h
    by_contra hkeys
    obtain ⟨front, a, rest, b, rfl, hb, hab⟩ := exists_descent hkeys
    exact not_literalLike_tellingPairs hb hab (h _ (keys_tellingPairs front a rest))
  · rintro h pairs rfl
    have hsorted := sortedPairs_of_ascending (ascending_iff_keys.mpr h)
    have hlike := literalLike_sortedPairs pairs
    rwa [hsorted] at hlike

/-- Raises the number as an error. -/
def raising (n : Int64) : Value :=
  ofList [.sym "throw", .int n]

/-- Two forms that fail, under keys that do not ascend. -/
def failingPairs : Entries Key Value :=
  [(.str "b", raising 1), (.str "a", raising 2)]

/-- With these keys in ascending order the literal evaluates like the call. The other way around there
are forms with which it does not. -/
theorem map_literal_like_call_failing :
    LiteralLike failingPairs.reverse failingPairs.reverse ∧
    ¬ ∀ pairs : Entries Key Value, pairs.map (·.1) = [.str "b", .str "a"] → LiteralLike pairs pairs := by
  constructor
  · have hkeys : [Key.str "a", .str "b"].Pairwise fun a b => compare a b = .lt := by decide
    exact (map_literal_like_call_iff _).2.mpr hkeys failingPairs.reverse rfl
  · intro h
    have hkeys : ¬ [Key.str "b", .str "a"].Pairwise fun a b => compare a b = .lt := by decide
    exact hkeys ((map_literal_like_call_iff _).2.mp h)

set_option maxRecDepth 8000 in
/-- In a new global scope the literal fails with the form of the smaller key, and the call with the
first form. -/
theorem map_literal_unlike_call :
    ∃ global w, (Session.newGlobal 1).outcome (World.start Files.empty "" 0) =
        some (.ok global, w) ∧
      Value.read "\x7b\"b\" (throw 1) \"a\" (throw 2)\x7d" =
        .ok (some (ofEntries (sortedPairs failingPairs))) ∧
      Value.read "(hash-map \"b\" (throw 1) \"a\" (throw 2))" =
        .ok (some (mapCall failingPairs)) ∧
      (eval 1 (ofEntries (sortedPairs failingPairs)) global).outcome w =
        some (.error ⟨.user, .int 2⟩, w) ∧
      (eval 1 (mapCall failingPairs) global).outcome w = some (.error ⟨.user, .int 1⟩, w) := by
  obtain ⟨global, w, hnew, -⟩ := Session.newGlobal_makes 0 Files.empty "" 0
  have hglobal := Session.newGlobal_standard hnew
  have hE := layered_evalWithin 1
  have hthrow : ∀ n, (evalWithin 1 199 (raising n) global).outcome w =
      some (.error ⟨.user, .int n⟩, w) := by
    intro n
    exact (hE.native rfl (hglobal.native .throw) (.cons rfl .nil)).trans rfl
  have hkey : ∀ key : Key, evalWithin 1 199 key.toValue global = pure key.toValue := by
    rintro (text | name) <;> rfl
  refine ⟨global, w, hnew, ?_, ?_, ?_, ?_⟩
  · refine read_of_tokens rfl ?_
    with_unfolding_all rfl
  · refine read_of_tokens rfl ?_
    with_unfolding_all rfl
  · have hsorted : sortedPairs failingPairs = [] ++ (.str "a", raising 2) ::
        [(.str "b", raising 1)] := rfl
    rw [eval, maxEvalDepth, evalWithin, evalSteps_literal, hsorted]
    exact outcome_bind_error _ (mapM_evalPair_error (List.forall_mem_nil _) (hthrow 2) _)
  · have hname := hglobal.native .hashMap
    rw [eval, maxEvalDepth, evalWithin, evalSteps_mapCall hname (hE.symbol hname rfl) hkey]
    have hfirst : failingPairs = [] ++ (.str "b", raising 1) :: [(.str "a", raising 2)] := rfl
    rw [hfirst]
    exact outcome_bind_error _ (mapM_evalPair_error (List.forall_mem_nil _) (hthrow 1) _)

end MiniLisp
