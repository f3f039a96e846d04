import MiniLisp.Proofs.Definitions
import MiniLisp.Proofs.FileLoading
import MiniLisp.Proofs.StandardNames
import MiniLisp.Repl

namespace MiniLisp

open Value Run

namespace Session

variable {fuel : Nat} {scope : ScopeId}

/-- What the function that loads files is made from. -/
def loader (scope : ScopeId) : Closure :=
  ⟨["f"], loaderBody, scope⟩

/-- What the definition of the function that loads files leaves behind. -/
def withLoader (w : World) (scope : ScopeId) : World :=
  let made := w.heap.newClosure (loader scope)
  { w with heap := made.1.bind scope "load-file" (.fn made.2 false .nil) }

/-- The form of the function that loads files. -/
def loaderForm : Value :=
  ofList [.sym "fn*", ofList [.sym "f"], loaderBody]

set_option maxRecDepth 8000 in
theorem read_loadFile : Value.read Prelude.loadFile =
    .ok (some (ofList [.sym "def!", .sym "load-file", loaderForm])) := by
  refine read_of_tokens rfl ?_
  with_unfolding_all rfl

theorem evalText_loadFile {w : World} (hw : w.heap.Global scope) :
    ∃ v, (evalText (fuel + 1) Prelude.loadFile scope).outcome w =
      some (.ok (some v), withLoader w scope) :=
  evalText_function hw read_loadFile rfl

/-- A new global scope loads files as the prelude says, and from the same files. -/
theorem newGlobal_loadsFiles {files : Files} {input : String} {clock : Int64} {w : World}
    (h : (newGlobal fuel).outcome (World.start files input clock) = some (.ok scope, w)) :
    w.heap.LoadsFiles scope ∧ w.files = files := by
  have hstandard := newGlobal_standard h
  let w₀ : World := { World.start files input clock with
    heap := (Heap.empty.enter none globalBindings).1 }
  let global := (Heap.empty.enter none globalBindings).2
  have hfirst : (evalText (fuel + 1) Prelude.negation global).Makes global
      ("load-file" :: standardNames) (fun _ => True) :=
    prelude_makes_otherwise _ (List.mem_cons_self ..)
  have hlater : (load (fuel + 1) global (Prelude.all.drop 2)).Makes global
      ("load-file" :: standardNames) (fun _ => True) :=
    load_makes fun source hs => prelude_makes_otherwise source (List.mem_cons_of_mem _ hs)
  obtain ⟨v, w₁, hnot, -, hglobal₁, -, hfiles₁⟩ := hfirst w₀ global_enter
  obtain ⟨v', hloader⟩ : ∃ v, (evalText (fuel + 1) Prelude.loadFile global).outcome w₁ =
      some (.ok (some v), withLoader w₁ global) := evalText_loadFile hglobal₁
  obtain ⟨_, w₂, hmade, -, hglobal₂, -, hfiles₂⟩ := loadFile_makes w₁ hglobal₁
  rw [hloader, Option.some.injEq, Prod.mk.injEq] at hmade
  obtain ⟨-, rfl⟩ := hmade
  obtain ⟨_, w₃, hrest, -, -, hkept₃, hfiles₃⟩ := hlater _ hglobal₂
  have hload : (load (fuel + 1) global Prelude.all).outcome w₀ = some (.ok (), w₃) :=
    (load_cons _ hnot).trans ((load_cons _ hloader).trans hrest)
  obtain ⟨id, hid, hclosure⟩ :
      ∃ id, (withLoader w₁ global).heap.scopes.lookup global "load-file" = some (.fn id false .nil) ∧
        (withLoader w₁ global).heap.closure? id = some (loader global) := hglobal₁.lookup_withFunction
  obtain ⟨rfl, rfl⟩ := newGlobal_of_load h hload
  refine ⟨⟨hstandard.outermost, ?_, ?_, ?_⟩, hfiles₃.trans (hfiles₂.trans hfiles₁)⟩
  · exact ⟨id, .nil, (hkept₃.names _ List.mem_cons_self).trans hid, hkept₃.closures _ _ hclosure⟩
  · intro op _
    exact ⟨.nil, hstandard.native op⟩
  · intro id note hlookup
    have hnone : w.heap.scopes.lookup global "do" = none := hstandard.form .sequence
    rw [hnone] at hlookup
    cases hlookup

/-- How an evaluation that has ended is printed. -/
def shown (heap : Heap) : Except Fault Value → String
  | .ok v => v.print heap .readable
  | .error fault => fault.toValue.print heap .readable

end Session

namespace Repl

open Session

section Running

variable {fuel : Nat} {files : Files} {input script : String} {clock : Int64} {args : List String}
  {global : ScopeId} {w : World}

end Running

end Repl
end MiniLisp
