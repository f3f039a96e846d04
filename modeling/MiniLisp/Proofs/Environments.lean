import MiniLisp.Proofs.MatchingSessions

namespace MiniLisp

open Run

variable {α β : Type}

section Rows

variable {p : Pairing} {R : α → β → Prop} {xs : Array α} {ys ys' : Array β} {owner : Nat → Nat}
  {env other : Nat}

/-- What stands in the places of the row that belong to others. -/
def keptFrom (owner : Nat → Nat) (env : Nat) (ys : Array β) (k : Nat) : Option β :=
  if owner k = env then none else ys[k]?

/-- Leaves the first places with their owners and gives all others to this one. -/
def grantFrom (owner : Nat → Nat) (size env k : Nat) : Nat :=
  if k < size then owner k else env

namespace Pairing.Links

theorem guarded (h : p.Links False (fun _ => none) R xs ys) (ho : ∀ i k, p.pairs i k → owner k = env) :
    p.Links False (keptFrom owner env ys) R xs ys where
  found := h.found
  keeps := by
    intro k y hy
    rw [keptFrom] at hy
    split at hy
    · cases hy
    · next hne => exact ⟨hy, fun i hik => hne (ho i k hik)⟩

theorem released (h : p.Links False (keptFrom owner env ys) R xs ys') :
    p.Links False (fun _ => none) R xs ys' where
  found := h.found
  keeps := by
    intro k y hy
    cases hy

/-- What is paired in the end is new, or was owned before. -/
theorem granted (h : p.Links False (keptFrom owner env ys) R xs ys') {i k : Nat}
    (hik : p.pairs i k) : grantFrom owner ys.size env k = env := by
  rw [grantFrom]
  split
  · next hk =>
    by_cases howner : owner k = env
    · exact howner
    · have hkept : keptFrom owner env ys k = some ys[k] := by
        rw [keptFrom, if_neg howner, Array.getElem?_eq_getElem hk]
      exact absurd hik ((h.keeps hkept).2 i)
  · rfl

/-- What belongs to others stays as it is, and stays theirs. -/
theorem spared (h : p.Links False (fun _ => none) R xs ys) (ho : ∀ i k, p.pairs i k → owner k = other)
    (hne : other ≠ env) (hkept : ∀ k y, keptFrom owner env ys k = some y → ys'[k]? = some y) :
    p.Links False (fun _ => none) R xs ys' ∧
      ∀ i k, p.pairs i k → grantFrom owner ys.size env k = other := by
  have hin : ∀ i k, p.pairs i k → ∃ x y, xs[i]? = some x ∧ ys[k]? = some y ∧ R x y := by
    intro i k hik
    rcases h.found hik with hfound | ⟨hfalse, -⟩
    · exact hfound
    · exact hfalse.elim
  refine ⟨⟨fun {i k} hik => ?_, fun hy => by cases hy⟩, fun i k hik => ?_⟩
  · -- The place belongs to another, so it is among those kept.
    obtain ⟨x, y, hx, hy, hxy⟩ := hin i k hik
    have howner : owner k ≠ env := fun heq => hne ((ho i k hik).symm.trans heq)
    exact .inl ⟨x, y, hx, hkept k y (by rw [keptFrom, if_neg howner, hy]), hxy⟩
  · obtain ⟨x, y, -, hy, -⟩ := hin i k hik
    rw [grantFrom, if_pos (Array.getElem?_eq_some_iff.mp hy).1, ho i k hik]

end Pairing.Links
end Rows

/-- No places are paired. -/
def Pairing.nothing : Pairing where
  pairs _ _ := False
  unique := False.elim

theorem Pairing.nothing_links {R : α → β → Prop} {xs : Array α} {ys : Array β} {owner : Nat → Nat}
    {env : Nat} : Pairing.nothing.Links False (keptFrom owner env ys) R xs ys :=
  Links.guarded ⟨False.elim, fun hy => by cases hy⟩ fun _ _ => False.elim

/-- Nothing is matched yet, and metadata is to match. -/
def Matching.nothing : Matching :=
  ⟨.nothing, .nothing, .nothing, True⟩

/-- To which of several global scopes each place belongs. -/
structure Owners where
  scopes : Nat → Nat
  cells : Nat → Nat
  closures : Nat → Nat

/-- All places that come after those in the world are given to this one. -/
def Owners.grant (o : Owners) (env : Nat) (w : World) : Owners where
  scopes := grantFrom o.scopes w.heap.scopes.all.size env
  cells := grantFrom o.cells w.heap.cells.size env
  closures := grantFrom o.closures w.heap.closures.size env

structure Matching.OwnedBy (o : Owners) (env : Nat) (ρ : Matching) : Prop where
  scopes : ∀ i k, ρ.scopes.pairs i k → o.scopes k = env
  cells : ∀ i k, ρ.cells.pairs i k → o.cells k = env
  closures : ∀ i k, ρ.closures.pairs i k → o.closures k = env

/-- Nothing is kept; there is no input, and the files and the clock are these. -/
def Frame.quiet (files : Files) (clock : Int64) : Frame :=
  ⟨False, fun _ => none, fun _ => none, fun _ => none, True, files, clock⟩

/-- All is kept that does not belong to this one. -/
def Frame.guarding (o : Owners) (env : Nat) (w : World) : Frame :=
  ⟨False, keptFrom o.scopes env w.heap.scopes.all, keptFrom o.cells env w.heap.cells,
    keptFrom o.closures env w.heap.closures, True, w.files, w.clock⟩

/-- There is no input, and the files and the clock are these. -/
structure World.Quiet (files : Files) (clock : Int64) (w : World) : Prop where
  input : w.input = []
  files : w.files = files
  clock : w.clock = clock

/-- The scope of the shared world, with all that belongs to it, is what the other scope is in a world
of its own. -/
def Stands (o : Owners) (files : Files) (clock : Int64) (env : Nat) (alone : ScopeId × World)
    (scope : ScopeId) (w : World) : Prop :=
  ∃ ρ : Matching, ρ.notes ∧ alone.1.Matches ρ scope ∧
    World.Matches (.quiet files clock) ρ alone.2.takeOutput.2 w.takeOutput.2 ∧ ρ.OwnedBy o env

section Guarding

variable {o : Owners} {files : Files} {clock : Int64} {env other : Nat} {ρ σ : Matching}
  {b b' w w' : World} {scope : ScopeId} {alone : ScopeId × World}

theorem World.Matches.guarded (h : World.Matches (.quiet files clock) ρ b.takeOutput.2 w.takeOutput.2)
    (ho : ρ.OwnedBy o env) :
    World.Matches (.guarding o env w) ρ b.takeOutput.2 w.takeOutput.2 where
  heap := ⟨h.heap.scopes.guarded ho.scopes, h.heap.cells.guarded ho.cells, h.heap.closures.guarded ho.closures⟩
  input := h.input
  silent := h.silent
  output := h.output
  files := ⟨h.files.1.trans h.files.2.symm, rfl⟩
  clock := ⟨h.clock.1.trans h.clock.2.symm, rfl⟩

theorem World.Matches.released (h : World.Matches (.guarding o env w) σ b' w') (hw : w.Quiet files clock) :
    World.Matches (.quiet files clock) σ b'.takeOutput.2 w'.takeOutput.2 ∧
      σ.OwnedBy (o.grant env w) env ∧ w'.Quiet files clock := by
  have hfiles : w.files = files := hw.files
  have hclock : w.clock = clock := hw.clock
  refine ⟨⟨⟨h.heap.scopes.released, h.heap.cells.released, h.heap.closures.released⟩, h.input, h.silent, rfl,
    ?_, ?_⟩, ⟨fun _ _ => h.heap.scopes.granted, fun _ _ => h.heap.cells.granted,
    fun _ _ => h.heap.closures.granted⟩, ⟨h.silent trivial, h.files.2.trans hfiles,
    h.clock.2.trans hclock⟩⟩
  · exact ⟨h.files.1.trans hfiles, h.files.2.trans hfiles⟩
  · exact ⟨h.clock.1.trans hclock, h.clock.2.trans hclock⟩

/-- What one scope does leaves the others where they stand. -/
theorem Stands.spared (hs : Stands o files clock other alone scope w) (hne : other ≠ env)
    (hw : w.Quiet files clock) (h : World.Matches (.guarding o env w) σ b' w') :
    Stands (o.grant env w) files clock other alone scope w' := by
  obtain ⟨ρ, hn, hscope, hworld, howned⟩ := hs
  obtain ⟨hs, hos⟩ := hworld.heap.scopes.spared howned.scopes hne fun _ _ hk => (h.heap.scopes.keeps hk).1
  obtain ⟨hc, hoc⟩ := hworld.heap.cells.spared howned.cells hne fun _ _ hk => (h.heap.cells.keeps hk).1
  obtain ⟨hf, hof⟩ := hworld.heap.closures.spared howned.closures hne fun _ _ hk =>
    (h.heap.closures.keeps hk).1
  have hquiet := (h.released hw).2.2
  refine ⟨ρ, hn, hscope, ⟨⟨hs, hc, hf⟩, ?_, fun _ => hquiet.input, rfl, ⟨hworld.files.1, hquiet.files⟩,
    ⟨hworld.clock.1, hquiet.clock⟩⟩, ⟨hos, hoc, hof⟩⟩
  exact (hworld.input.trans hw.input).trans hquiet.input.symm

end Guarding

namespace Session

/-- What may be asked for: another global scope, or an answer in one of those made so far. -/
inductive Request where
  | create
  | rep (env : Nat) (source : String)

/-- The answer to a text, and what has been printed meanwhile. -/
abbrev Reply := Option String × String

/-- Does what is asked for, one after the other, in these global scopes and those that are made on the
way. Each reply is kept with the scope that gave it. -/
def serve (fuel : Nat) : List ScopeId → List Request → Run (List (Nat × Reply))
  | _, [] => return []
  | envs, .create :: requests => do
    let (scope, _) ← (newGlobal fuel).printing
    serve fuel (envs ++ [scope]) requests
  | envs, .rep env source :: requests =>
    match envs[env]? with
    | none => serve fuel envs requests
    | some scope => do
      let reply ← (rep fuel source scope).printing
      return (env, reply) :: (← serve fuel envs requests)

/-- Answers texts in this scope and nowhere else. -/
def respond (fuel : Nat) (scope : ScopeId) (sources : List String) : Run (List Reply) :=
  sources.mapM fun source => (rep fuel source scope).printing

/-- Answers texts in a global scope that is made for them. -/
def serveAlone (fuel : Nat) (sources : List String) : Run (List Reply) := do
  let (scope, _) ← (newGlobal fuel).printing
  respond fuel scope sources

/-- How many global scopes are asked for. -/
def creations : List Request → Nat
  | [] => 0
  | .create :: requests => creations requests + 1
  | .rep .. :: requests => creations requests

/-- The texts for one of the scopes, where so many scopes have been made before. -/
def sourcesFor (env : Nat) : Nat → List Request → List String
  | _, [] => []
  | count, .create :: requests => sourcesFor env (count + 1) requests
  | count, .rep k source :: requests =>
    if k = env ∧ k < count then source :: sourcesFor env count requests
    else sourcesFor env count requests

/-- The replies that one of the scopes has given. -/
def repliesFor (env : Nat) (replies : List (Nat × Reply)) : List Reply :=
  (replies.filter fun r => r.1 = env).map (·.2)

/-- Each of the scopes stands where it would stand alone. -/
structure Beside (o : Owners) (files : Files) (clock : Int64) (alone : List (ScopeId × World))
    (envs : List ScopeId) (w : World) : Prop where
  quiet : w.Quiet files clock
  length : alone.length = envs.length
  stands : ∀ {env a scope}, alone[env]? = some a → envs[env]? = some scope →
    Stands o files clock env a scope w

/-- How it ends when texts are answered alone: in the scope that has been made already, or in a new
one. -/
def aloneFrom (fuel : Nat) (start : World) (sources : List String) :
    Option (ScopeId × World) → Option (Except Fault (List Reply) × World)
  | some (scope, w) => (respond fuel scope sources).outcome w
  | none => (serveAlone fuel sources).outcome start

section Serving

variable {o : Owners} {files : Files} {clock : Int64} {alone : List (ScopeId × World)}
  {envs : List ScopeId} {w w' b' : World} {ρ σ : Matching} {scope global : ScopeId} {env fuel : Nat}

/-- A scope that has just answered has moved on, and the others stand where they stood. -/
theorem Beside.set (h : Beside o files clock alone envs w) (hscope : envs[env]? = some scope)
    (hn : σ.notes) (hglobal : global.Matches σ scope)
    (hw : World.Matches (.guarding o env w) σ b' w') :
    Beside (o.grant env w) files clock (alone.set env (global, b')) envs w' := by
  obtain ⟨hworld, howned, hquiet⟩ := hw.released h.quiet
  refine ⟨hquiet, by rw [List.length_set, h.length], fun {other a scope'} ha hscope' => ?_⟩
  rw [List.getElem?_set] at ha
  split at ha
  · next heq =>
    subst heq
    split at ha
    · cases ha
      rw [hscope] at hscope'
      cases hscope'
      exact ⟨σ, hn, hglobal, hworld, howned⟩
    · cases ha
  · next hne => exact (h.stands ha hscope').spared (Ne.symm hne) h.quiet hw

/-- A scope that has just been made stands where it would stand alone, and so do the others. -/
theorem Beside.append (h : Beside o files clock alone envs w) (hn : σ.notes)
    (hglobal : global.Matches σ scope)
    (hw : World.Matches (.guarding o envs.length w) σ b' w') :
    Beside (o.grant envs.length w) files clock (alone ++ [(global, b')]) (envs ++ [scope]) w' := by
  obtain ⟨hworld, howned, hquiet⟩ := hw.released h.quiet
  refine ⟨hquiet, by simp [h.length], fun {other a scope'} ha hscope' => ?_⟩
  rcases Nat.lt_or_ge other envs.length with hlt | hge
  · rw [List.getElem?_append_left (h.length ▸ hlt)] at ha
    rw [List.getElem?_append_left hlt] at hscope'
    exact (h.stands ha hscope').spared (Nat.ne_of_lt hlt) h.quiet hw
  · rw [List.getElem?_append_right (h.length ▸ hge)] at ha
    rw [List.getElem?_append_right hge] at hscope'
    obtain rfl : other = envs.length := by
      have hlt := (List.getElem?_eq_some_iff.mp hscope').1
      rw [List.length_singleton] at hlt
      omega
    rw [h.length, Nat.sub_self] at ha
    rw [Nat.sub_self] at hscope'
    cases ha
    cases hscope'
    exact ⟨σ, hn, hglobal, hworld, howned⟩

/-- A text is answered in the shared world as in the world of its own. -/
theorem Beside.rep {a : ScopeId × World} (h : Beside o files clock alone envs w)
    (ha : alone[env]? = some a) (hscope : envs[env]? = some scope) (fuel : Nat) (source : String) :
    ((Session.rep fuel source a.1).printing.outcome a.2 = none ∧
      (Session.rep fuel source scope).printing.outcome w = none) ∨
    ∃ reply b' w' o', (Session.rep fuel source a.1).printing.outcome a.2 = some (.ok reply, b') ∧
      (Session.rep fuel source scope).printing.outcome w = some (.ok reply, w') ∧
      Beside o' files clock (alone.set env (a.1, b')) envs w' := by
  obtain ⟨ρ, hn, hglobal, hworld, howned⟩ := h.stands ha hscope
  have hends := printing_ends (P := Same) (fun _ heq => heq) (rep_matches hn fuel source hglobal)
    (hworld.guarded howned)
  cases hleft : (Session.rep fuel source a.1).printing.outcome a.2 with
  | none =>
    rw [hleft] at hends
    cases hright : (Session.rep fuel source scope).printing.outcome w with
    | none => exact .inl ⟨rfl, rfl⟩
    | some ending =>
      rw [hright] at hends
      cases hends
  | some ending =>
    obtain ⟨result, b'⟩ := ending
    obtain ⟨reply, rfl⟩ := (rep_succeeds fuel source a.1).printing _ _ _ hleft
    rw [hleft] at hends
    obtain ⟨σ, result', w', hright, hσ, hends', hresult⟩ := hends.right
    cases hresult with
    | ok hreply =>
      refine .inr ⟨reply, b', w', _, rfl, ?_, h.set hscope (hσ.notes.mpr hn) (hglobal.mono hσ) hends'⟩
      rw [hright, Prod.ext hreply.1 hreply.2]

/-- A global scope is made in the shared world as in a world of its own. -/
theorem Beside.create (h : Beside o files clock alone envs w) (fuel : Nat) :
    ((newGlobal fuel).printing.outcome (World.start files "" clock) = none ∧
      (newGlobal fuel).printing.outcome w = none) ∨
    ∃ global scope printed printed' b' w' o',
      (newGlobal fuel).printing.outcome (World.start files "" clock) =
        some (.ok (global, printed), b') ∧
      (newGlobal fuel).printing.outcome w = some (.ok (scope, printed'), w') ∧
      Beside o' files clock (alone ++ [(global, b')]) (envs ++ [scope]) w' := by
  have hworld : World.Matches (.guarding o envs.length w) .nothing
      (World.start files "" clock).takeOutput.2 w.takeOutput.2 :=
    ⟨⟨Pairing.nothing_links, Pairing.nothing_links, Pairing.nothing_links⟩, h.quiet.input.symm,
      fun _ => h.quiet.input, rfl, ⟨h.quiet.files.symm, rfl⟩, ⟨h.quiet.clock.symm, rfl⟩⟩
  have hends := printing_ends (P := ScopeId.Matches) (fun hσ hs => hs.mono hσ)
    (newGlobal_matches trivial fuel) hworld
  cases hleft : (newGlobal fuel).printing.outcome (World.start files "" clock) with
  | none =>
    rw [hleft] at hends
    cases hright : (newGlobal fuel).printing.outcome w with
    | none => exact .inl ⟨rfl, rfl⟩
    | some ending =>
      rw [hright] at hends
      cases hends
  | some ending =>
    obtain ⟨result, b'⟩ := ending
    obtain ⟨⟨global, printed⟩, rfl⟩ := (newGlobal_succeeds fuel).printing _ _ _ hleft
    rw [hleft] at hends
    obtain ⟨σ, result', w', hright, hσ, hends', hresult⟩ := hends.right
    cases hresult with
    | @ok _ y hscope =>
      obtain ⟨scope, printed'⟩ := y
      exact .inr ⟨global, scope, printed, printed', b', w', _, rfl, hright,
        h.append (hσ.notes.mpr trivial) hscope.1 hends'⟩

end Serving

section Alone

variable {fuel : Nat} {start : World} {alone : List (ScopeId × World)} {sources : List String}

/-- Whether a scope has been made already or is still to be made makes no difference. -/
theorem aloneFrom_append {global : ScopeId} {printed : String} {b : World}
    (h : (newGlobal fuel).printing.outcome start = some (.ok (global, printed), b)) (env : Nat) :
    aloneFrom fuel start sources (alone ++ [(global, b)])[env]? =
      aloneFrom fuel start sources alone[env]? := by
  rcases Nat.lt_trichotomy env alone.length with hlt | rfl | hgt
  · rw [List.getElem?_append_left hlt]
  · rw [List.getElem?_concat_length, List.getElem?_eq_none (Nat.le_refl _)]
    rw [aloneFrom, aloneFrom, serveAlone, outcome_bind_ok _ h]
  · rw [List.getElem?_eq_none (by simpa using Nat.succ_le_of_lt hgt), List.getElem?_eq_none (Nat.le_of_lt hgt)]

theorem aloneFrom_cons {a : ScopeId × World} {source : String} {reply : Reply} {b b' : World}
    {replies : List Reply} (h : (rep fuel source a.1).printing.outcome a.2 = some (.ok reply, b))
    (hrest : aloneFrom fuel start sources (some (a.1, b)) = some (.ok replies, b')) :
    aloneFrom fuel start (source :: sources) (some a) = some (.ok (reply :: replies), b') := by
  rw [aloneFrom, respond] at hrest ⊢
  rw [List.mapM_cons, outcome_bind_ok _ h, outcome_bind_ok _ hrest, outcome_pure]

theorem aloneFrom_cons_none {a : ScopeId × World} {source : String} {reply : Reply} {b : World}
    (h : (rep fuel source a.1).printing.outcome a.2 = some (.ok reply, b))
    (hrest : aloneFrom fuel start sources (some (a.1, b)) = none) :
    aloneFrom fuel start (source :: sources) (some a) = none := by
  rw [aloneFrom, respond] at hrest ⊢
  rw [List.mapM_cons, outcome_bind_ok _ h, outcome_bind, hrest, Option.bind_none]

theorem aloneFrom_none {a : ScopeId × World} {source : String}
    (h : (rep fuel source a.1).printing.outcome a.2 = none) :
    aloneFrom fuel start (source :: sources) (some a) = none := by
  rw [aloneFrom, respond, List.mapM_cons, outcome_bind, h, Option.bind_none]

end Alone

theorem sourcesFor_self {env count : Nat} (h : env < count) (source : String)
    (requests : List Request) :
    sourcesFor env count (.rep env source :: requests) = source :: sourcesFor env count requests := by
  rw [sourcesFor, if_pos ⟨rfl, h⟩]

theorem sourcesFor_other {env k count : Nat} (h : ¬ (k = env ∧ k < count)) (source : String)
    (requests : List Request) :
    sourcesFor env count (.rep k source :: requests) = sourcesFor env count requests := by
  rw [sourcesFor, if_neg h]

theorem repliesFor_self (env : Nat) (reply : Reply) (replies : List (Nat × Reply)) :
    repliesFor env ((env, reply) :: replies) = reply :: repliesFor env replies := by
  simp [repliesFor]

theorem repliesFor_other {env k : Nat} (h : k ≠ env) (reply : Reply) (replies : List (Nat × Reply)) :
    repliesFor env ((k, reply) :: replies) = repliesFor env replies := by
  simp [repliesFor, h]

section Requests

variable {fuel : Nat} {o : Owners} {files : Files} {clock : Int64} {alone : List (ScopeId × World)}
  {envs : List ScopeId} {w : World} {requests : List Request}

/-- The requests are served to the end, and each scope gives the replies that it would give alone; or
they are not, and one of the scopes would not come to an end alone, either. -/
def ServedAlike (fuel : Nat) (start : World) (alone : List (ScopeId × World)) (envs : List ScopeId)
    (w : World) (requests : List Request) : Prop :=
  (∃ replies w', (serve fuel envs requests).outcome w = some (.ok replies, w') ∧
    ∀ env < envs.length + creations requests, ∃ b',
      aloneFrom fuel start (sourcesFor env envs.length requests) alone[env]? =
        some (.ok (repliesFor env replies), b')) ∨
  ((serve fuel envs requests).outcome w = none ∧
    ∃ env < envs.length + creations requests,
      aloneFrom fuel start (sourcesFor env envs.length requests) alone[env]? = none)

theorem Beside.served_create (h : Beside o files clock alone envs w)
    (hrest : ∀ {o' alone' envs' w'}, Beside o' files clock alone' envs' w' →
      ServedAlike fuel (World.start files "" clock) alone' envs' w' requests) :
    ServedAlike fuel (World.start files "" clock) alone envs w (.create :: requests) := by
  rcases h.create fuel with ⟨hleft, hright⟩ |
    ⟨global, scope, printed, printed', b', w', o', hleft, hright, hbeside⟩
  · refine .inr ⟨?_, envs.length, Nat.lt_add_of_pos_right (Nat.succ_pos _), ?_⟩
    · rw [serve, outcome_bind, hright, Option.bind_none]
    · rw [List.getElem?_eq_none (Nat.le_of_eq h.length), aloneFrom, serveAlone, outcome_bind, hleft,
        Option.bind_none]
  · have hserved := hrest hbeside
    rw [ServedAlike, List.length_append, List.length_singleton, Nat.add_assoc, Nat.add_comm 1]
      at hserved
    simp only [aloneFrom_append hleft] at hserved
    rw [ServedAlike, serve, outcome_bind_ok _ hright]
    exact hserved

/-- A text for a scope that is not there yet is passed by. -/
theorem ServedAlike.skip {start : World} {k : Nat} (hscope : envs[k]? = none) (source : String)
    (hrest : ServedAlike fuel start alone envs w requests) :
    ServedAlike fuel start alone envs w (.rep k source :: requests) := by
  have hk : ¬ k < envs.length := Nat.not_lt.mpr (List.getElem?_eq_none_iff.mp hscope)
  have hsources : ∀ env, sourcesFor env envs.length (.rep k source :: requests) =
      sourcesFor env envs.length requests :=
    fun env => sourcesFor_other (fun hsame => hk hsame.2) source requests
  rw [ServedAlike, serve, hscope]
  simp only [hsources]
  exact hrest

theorem Beside.served_rep {k : Nat} {scope : ScopeId} (h : Beside o files clock alone envs w)
    (hscope : envs[k]? = some scope) (source : String)
    (hrest : ∀ {o' alone' envs' w'}, Beside o' files clock alone' envs' w' →
      ServedAlike fuel (World.start files "" clock) alone' envs' w' requests) :
    ServedAlike fuel (World.start files "" clock) alone envs w (.rep k source :: requests) := by
  have hk : k < envs.length := (List.getElem?_eq_some_iff.mp hscope).1
  have hka : k < alone.length := h.length ▸ hk
  have ha : alone[k]? = some alone[k] := List.getElem?_eq_getElem hka
  rw [ServedAlike, serve, hscope]
  rcases h.rep ha hscope fuel source with ⟨hleft, hright⟩ | ⟨reply, b', w', o', hleft, hright, hbeside⟩
  · refine .inr ⟨?_, k, Nat.lt_add_right _ hk, ?_⟩
    · exact (outcome_bind _ _ _).trans (by rw [hright, Option.bind_none])
    · rw [ha, sourcesFor_self hk, aloneFrom_none hleft]
  · -- Alone, only this scope has moved on by a text.
    have hself : (alone.set k (alone[k].1, b'))[k]? = some (alone[k].1, b') :=
      List.getElem?_set_self hka
    have hother : ∀ env, k ≠ env → (alone.set k (alone[k].1, b'))[env]? = alone[env]? :=
      fun env hne => List.getElem?_set_ne hne
    rcases hrest hbeside with ⟨replies, w'', hreplies, hall⟩ | ⟨hnone, env, henv, halone⟩
    · refine .inl ⟨(k, reply) :: replies, w'', ?_, fun env henv => ?_⟩
      · exact (outcome_bind_ok _ hright).trans ((outcome_bind_ok _ hreplies).trans rfl)
      · obtain ⟨b'', hb⟩ := hall env henv
        by_cases hke : k = env
        · subst hke
          rw [hself] at hb
          rw [ha, sourcesFor_self hk, repliesFor_self]
          exact ⟨b'', aloneFrom_cons hleft hb⟩
        · rw [hother env hke] at hb
          rw [sourcesFor_other fun hsame => hke hsame.1, repliesFor_other hke]
          exact ⟨b'', hb⟩
    · refine .inr ⟨?_, env, henv, ?_⟩
      · refine (outcome_bind_ok _ hright).trans ((outcome_bind _ _ _).trans ?_)
        rw [hnone, Option.bind_none]
      · by_cases hke : k = env
        · subst hke
          rw [hself] at halone
          rw [ha, sourcesFor_self hk, aloneFrom_cons_none hleft halone]
        · rw [hother env hke] at halone
          rw [sourcesFor_other fun hsame => hke hsame.1, halone]

theorem Beside.served (h : Beside o files clock alone envs w) (fuel : Nat) (requests : List Request) :
    ServedAlike fuel (World.start files "" clock) alone envs w requests := by
  induction requests generalizing o alone envs w with
  | nil =>
    refine .inl ⟨[], w, rfl, fun env henv => ?_⟩
    rw [List.getElem?_eq_getElem (h.length ▸ henv)]
    exact ⟨_, rfl⟩
  | cons request requests ih =>
    cases request with
    | create => exact h.served_create ih
    | rep k source =>
      cases hscope : envs[k]? with
      | none => exact .skip hscope source (ih h)
      | some scope => exact h.served_rep hscope source ih

end Requests

/-- Global scopes do not interfere. In whatever order scopes are made and texts are answered in them,
each scope gives the answers, and prints the texts, that it would give and print alone in a new
world, to which only its own texts are given; and all requests are served to the end if each
scope alone would come to an end. -/
theorem environments_do_not_interfere (fuel : Nat) (files : Files) (clock : Int64)
    (requests : List Request) :
    (∃ replies w, (serve fuel [] requests).outcome (World.start files "" clock) =
        some (.ok replies, w) ∧
      ∀ env < creations requests, ∃ w',
        (serveAlone fuel (sourcesFor env 0 requests)).outcome (World.start files "" clock) =
          some (.ok (repliesFor env replies), w')) ∨
    ((serve fuel [] requests).outcome (World.start files "" clock) = none ∧
      ∃ env < creations requests,
        (serveAlone fuel (sourcesFor env 0 requests)).outcome (World.start files "" clock) = none) := by
  have hstart : Beside ⟨fun _ => 0, fun _ => 0, fun _ => 0⟩ files clock [] []
      (World.start files "" clock) :=
    ⟨⟨rfl, rfl, rfl⟩, rfl, fun ha => by cases ha⟩
  have hserved := hstart.served fuel requests
  rw [ServedAlike] at hserved
  simpa [aloneFrom] using hserved

end Session
end MiniLisp
